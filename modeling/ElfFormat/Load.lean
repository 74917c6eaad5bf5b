import ElfFormat.Image
import ElfFormat.Load.Options

/-!
# Loading

What loading a file gives depends on what is found at its path. The size is checked before anything
is read. A directory can be opened and has a size, but has no bytes to read or to map.
-/

namespace ElfFormat

/-- What a path leads to. -/
inductive Target where
  | missing
  /-- A directory, with the size that the file system gives for it. -/
  | directory (size : Nat)
  | file (bytes : ByteArray)

/-- The words of the operating system for a refusal. -/
inductive SystemFault where
  | notFound
  | noDevice
  | isDirectory
deriving DecidableEq, Repr

/-- The fault in the words of the operating system. -/
def SystemFault.message : SystemFault → String
  | notFound => "No such file or directory (os error 2)"
  | noDevice => "No such device (os error 19)"
  | isDirectory => "Is a directory (os error 21)"

/-- Refuses a file that is larger than the options allow. -/
def LoadOptions.checkSize (options : LoadOptions) (size : Nat) : Except Error Unit :=
  if options.maxFileSize.toNat < size then
    .error (.fileTooLarge options.maxFileSize.toNat size)
  else .ok ()

/-- Why a directory has no bytes. What has no size is never mapped, only read. -/
def SystemFault.ofDirectory (size : Nat) (strategy : LoadStrategy) : SystemFault :=
  if strategy = .map ∧ size ≠ 0 then noDevice else isDirectory

/-- Loads what a path leads to. The size is checked before anything is read, and a directory has a
size too. -/
def Image.load (target : Target) (options : LoadOptions) : Except Error Image :=
  match target with
  | .missing => .error (.system SystemFault.notFound.message)
  | .directory size => do
    options.checkSize size
    .error (.system (SystemFault.ofDirectory size options.strategy).message)
  | .file bytes => do
    options.checkSize bytes.size
    return { bytes }

end ElfFormat
