import TyLsm.DB
import TyLsm.FileOps

/-! The names of the files of a database. No two files share a name. -/

namespace TyLsm

def walFileName (number : Nat) : String := sixDigits number ++ ".wal"

def manifestFileName (number : Nat) : String := "MANIFEST-" ++ sixDigits number

/-- The name under which a table is written. -/
def tableTmpName (number : Nat) : String := tableFileName number ++ ".tmp"

def currentFile : String := "CURRENT"

def currentTmpFile : String := "CURRENT.tmp"

/-- The digits of a `u64`, after at most one sign. -/
def parseU64 (chars : List Char) : Option Nat :=
  let digits := if chars.head? = some '+' then chars.tail else chars
  if digits.isEmpty || !digits.all Char.isDigit || decide (2 ^ 64 ≤ Nat.ofDigitChars 10 digits 0) then
    none
  else some (Nat.ofDigitChars 10 digits 0)

def parseManifestNumber (name : String) : Option Nat :=
  let pre := "MANIFEST-".toList
  if pre.isPrefixOf name.toList then parseU64 (name.toList.drop pre.length) else none

theorem toList_sixDigits (n : Nat) : (sixDigits n).toList =
    List.replicate (6 - (toString n).length) '0' ++ Nat.toDigits 10 n := by
  simp [sixDigits]

theorem sixDigits_injective : Function.Injective sixDigits := by
  intro m n h
  have hlist := congrArg (fun s => Nat.ofDigitChars 10 (String.toList s) 0) h
  simpa [toList_sixDigits, Nat.ofDigitChars_append, Nat.ofDigitChars_replicate_zero,
    Nat.ofDigitChars_ten_toDigits] using hlist

theorem walFileName_injective : Function.Injective walFileName :=
  fun _ _ h => sixDigits_injective (String.append_left_inj _ |>.mp h)

theorem tableFileName_injective : Function.Injective tableFileName :=
  fun _ _ h => sixDigits_injective (String.append_left_inj _ |>.mp h)

/-- The names are told apart by their last letters. -/
def lastLetter (name : String) : Option Char := name.toList.getLast?

theorem lastLetter_append (l : String) {r : String} (hr : r.toList ≠ []) :
    lastLetter (l ++ r) = lastLetter r := by
  rw [lastLetter, String.toList_append, List.getLast?_append_of_ne_nil _ hr, lastLetter]

@[simp] theorem lastLetter_wal (n : Nat) : lastLetter (walFileName n) = some 'l' :=
  lastLetter_append _ (by decide)

@[simp] theorem lastLetter_table (n : Nat) : lastLetter (tableFileName n) = some 't' :=
  lastLetter_append _ (by decide)

@[simp] theorem lastLetter_tableTmp (n : Nat) : lastLetter (tableTmpName n) = some 'p' :=
  lastLetter_append _ (by decide)

@[simp] theorem lastLetter_manifest : lastLetter (manifestFileName 1) = some '1' := by decide

@[simp] theorem lastLetter_current : lastLetter currentFile = some 'T' := by decide

@[simp] theorem lastLetter_currentTmp : lastLetter currentTmpFile = some 'p' := by decide

theorem ne_of_lastLetter {l r : String} (h : lastLetter l ≠ lastLetter r) : l ≠ r :=
  fun he => h (congrArg lastLetter he)

end TyLsm
