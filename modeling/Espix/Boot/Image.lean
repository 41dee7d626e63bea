import Mathlib.Data.List.Basic

/-! Kernel images as files, and the check that the kernel and the loader share:
`espix_ota_verify_file` and the loader's `verify_file`. -/

namespace Espix.Boot.Image

abbrev Bytes := List UInt8

def headerSize : Nat := 24

/-- What is appended to an image: the digest of everything before it. -/
def digestSize : Nat := 32

inductive Verdict
  | ok
  | notFound
  | invalidVersion
  | fail
  | invalidCrc
  deriving DecidableEq, Repr

/-- The check of a file, `none` if it cannot be opened; `reads` says whether reading
and hashing go through. -/
def verifyFile (sha256 : Bytes → Bytes) (reads : Bool) : Option Bytes → Verdict
  | none => .notFound
  | some bytes =>
    if bytes.length < headerSize ∨ bytes[0]? ≠ some 0xe9 ∨ bytes[23]? ≠ some 1 ∨
        bytes.length ≤ headerSize + digestSize then .invalidVersion
    else if !reads then .fail
    else if bytes.drop (bytes.length - digestSize) =
      sha256 (bytes.take (bytes.length - digestSize)) then
      .ok
    else .invalidCrc

/-- `ESPIX_OTA_NAME_MAX` and `NAME_MAX_`. -/
def nameMax : Nat := 64

/-- `name_get` and `state_get`: a string that does not fit the buffer reads as none. -/
def nameGet (stored : List Char) : List Char := if stored.length < nameMax then stored else []

def bootPath (name : List Char) : List Char := "/boot/".toList ++ name

/-- A name is a file in `/boot`, a path is itself. -/
def resolve (target : List Char) : List Char :=
  if target.head? = some '/' then target else bootPath target

abbrev Files := List Char → Option Bytes

/-- An image of one block, told from others by one byte, and a digest it verifies with. -/
def smallImage (tag : UInt8) : Bytes :=
  0xe9 :: List.replicate 22 0 ++ [1, tag] ++ List.replicate 32 0

def zeroDigest : Bytes → Bytes := fun _ => List.replicate 32 0

theorem nameGet_nameGet (stored : List Char) : nameGet (nameGet stored) = nameGet stored := by
  simp only [nameGet]
  split <;> simp_all [nameMax]

theorem bootPath_inj {name other : List Char} (same : bootPath name = bootPath other) :
    name = other :=
  List.append_cancel_left same

end Espix.Boot.Image
