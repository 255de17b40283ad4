import FerrisFS.Lib.Prog
import Mathlib.Algebra.Group.Nat.Defs

/-!
# Errors and shared constants

`fs_utils.rs`, `file.rs` and the part of `fs_error.rs` that the modelled
functions return: every error value with its payload. The message texts and the
numeric codes are read by no modelled function.
-/

namespace FerrisFS

/-- The UTF-8 bytes of a Rust string. -/
abbrev Str := List UInt8

/-- The decimal digits `to_string` writes for an index. -/
def natStr (n : Nat) : Str := (Nat.toDigits 10 n).map fun c => UInt8.ofNat c.toNat

def MAGIC : Nat := 0x2E2E616E616E6162
def BLOCK_SIZE : Nat := 256
def INVALID_ADDRESS : Nat := 2 ^ 32 - 1

/-- `u16`, `u32` and `u64` overflow at these bounds. -/
abbrev U16 : Nat := 2 ^ 16
abbrev U32 : Nat := 2 ^ 32
abbrev U64 : Nat := 2 ^ 64

inductive FileType where
  | file
  | directory
  | symlink
  | unknown
  deriving DecidableEq, Repr

/-- `FileType::to_le_bytes`. -/
def FileType.toByte : FileType → UInt8
  | .file => 0
  | .directory => 1
  | .symlink => 2
  | .unknown => 3

/-- `FileType::from_le_bytes`. -/
def FileType.ofByte (b : UInt8) : FileType :=
  if b = 0 then .file else if b = 1 then .directory else if b = 2 then .symlink else .unknown

@[simp] theorem FileType.ofByte_toByte (t : FileType) : FileType.ofByte t.toByte = t := by
  cases t <;> rfl

inductive StorageFullKind where
  | inodeTableFull
  | dataRegionFull
  deriving DecidableEq, Repr

inductive InvalidDirEntryKind where
  | zeroLength
  | invalidINode
  deriving DecidableEq, Repr

inductive InvalidDirKind where
  | entriesOverfillBlock
  deriving DecidableEq, Repr

inductive InvalidINodeKind where
  | sizeGreaterThanAllocatedRegion
  | invalidDirect (ind address : Nat)
  | directOOB (ind address max : Nat)
  deriving DecidableEq, Repr

inductive InvalidInputKind where
  | dirEntriesOverfillBlock (block offset recordLen : Nat)
  | dirEntriesUnderfillBlock (block filled : Nat)
  | offsetNotAtDirEntryStart (block offset : Nat)
  | inodeIndexOOB (index max : Nat)
  | blockIndexOOB (index max : Nat)
  | indexOOB (index max : Nat)
  | inodeBlockIndexOOB (index max : Nat)
  | unknownFileType
  | notEnoughAllocatedBlocks (required provided : Nat)
  | fileIsSelfOrParent
  deriving DecidableEq, Repr

/-- `std::io::ErrorKind`, as far as the host file reports it. -/
inductive HostErrorKind where
  | unexpectedEof
  deriving DecidableEq, Repr

inductive FSError where
  | directoryDoesNotExist (path : Str)
  | doesNotExist (path : Str)
  | alreadyExists (path : Str)
  | notADirectory (path : Str)
  | notAFile (path : Str)
  | notASymlink (path : Str)
  | directoryNotEmpty (path : Str)
  | fileNotOpen (fileId : Nat)
  | dirFreeRegionTooSmall (block offset available required : Nat)
  | dirEntryNotFree (block offset : Nat)
  | storageFull (kind : StorageFullKind) (requested available : Nat)
  | maxINodeSize (requestedBlocks maxBlocks : Nat)
  | emptySymlink (path : Str)
  | maximumSymlinkDepthReached (path : Str) (maxDepth : Nat)
  | deletingRoot (path : Str)
  | invalidDirEntry (kind : InvalidDirEntryKind) (block offset : Nat)
  | invalidDir (kind : InvalidDirKind) (block offset : Nat)
  | invalidINode (kind : InvalidINodeKind) (size blocks : Nat)
  | invalidInput (kind : InvalidInputKind)
  | invalidMagic (expected actual : Nat)
  | io (kind : HostErrorKind)
  deriving DecidableEq, Repr

end FerrisFS
