import Aesd.Driver.Basic
import Aesd.Foundation.CString
import Aesd.Foundation.Format
import Mathlib.Data.Nat.Digits.Lemmas

/-!
# The line of the timestamp thread

`strftime` with the conversions that `timestamp_thread` uses, and the line that the thread makes of
the time. The array that it formats into is long enough for every time that fits a `struct tm`, and
the line ends in its only newline (`timestampLine_spec`).

A year can have more than four digits. The longest line still leaves room in the array, so
`strftime` never returns zero, which would leave the contents of the array undefined.
-/

namespace Aesd

/-- `struct tm`, as `localtime` fills it for a time that the system clock has. -/
structure Tm where
  tmSec : Fin 61
  tmMin : Fin 60
  tmHour : Fin 24
  tmMday : Fin 32
  tmMon : Fin 12
  /-- Years since 1900, an `int`. -/
  tmYear : ℕ
  tmYear_lt : tmYear < 2 ^ 31

/-! ## `strftime` -/

def digit (n : ℕ) : UInt8 := UInt8.ofNat (48 + n)

def decimal (n : ℕ) : List UInt8 := (Nat.digits 10 n).reverse.map digit

/-- A number below a hundred, in two digits. -/
def twoDigits (n : ℕ) : List UInt8 := [digit (n / 10), digit (n % 10)]

/-- The conversions `%Y`, `%m`, `%d`, `%H`, `%M` and `%S`, of a time that is not used up. -/
def strftimeConversions : Conversions Tm where
  convert spec args :=
    match args with
    | [] => none
    | tm :: _ =>
      match spec with
      | [89] => some (decimal (tm.tmYear + 1900), args)
      | [109] => some (twoDigits (tm.tmMon + 1), args)
      | [100] => some (twoDigits tm.tmMday, args)
      | [72] => some (twoDigits tm.tmHour, args)
      | [77] => some (twoDigits tm.tmMin, args)
      | [83] => some (twoDigits tm.tmSec, args)
      | _ => none
  convert_nil := fun _ ↦ rfl

/-- `strftime`: the string in the array of `max` bytes, if the result fits. -/
def strftime (max : ℕ) (format : List UInt8) (tm : Tm) : Option (List UInt8) :=
  (strftimeConversions.render none [tm] format).filter fun out ↦ out.length < max

/-! ## The line -/

/-- `timestamp: `, with its blank. -/
def timestampLabel : List UInt8 := [116, 105, 109, 101, 115, 116, 97, 109, 112, 58, 32]

/-- `timestamp: %Y-%m-%d %H:%M:%S` and a newline. -/
def timestampFormat : List UInt8 :=
  timestampLabel ++ [37, 89, 45, 37, 109, 45, 37, 100, 32, 37, 72, 58, 37, 77, 58, 37, 83, newline]

/-- The line of `timestamp_thread`, in its array of 128 bytes. -/
@[irreducible] def timestampLine (tm : Tm) : Option (List UInt8) := strftime 128 timestampFormat tm

/-- The line up to its newline. -/
def timestampText (tm : Tm) : List UInt8 :=
  timestampLabel ++ (decimal (tm.tmYear + 1900) ++ 45 ::
    (twoDigits (tm.tmMon + 1) ++ 45 :: (twoDigits tm.tmMday ++ 32 :: (twoDigits tm.tmHour ++
      58 :: (twoDigits tm.tmMin ++ 58 :: twoDigits tm.tmSec)))))

private theorem render_timestampFormat (tm : Tm) :
    strftimeConversions.render none [tm] timestampFormat
      = some (timestampText tm ++ [newline]) := by
  simp [Conversions.render, timestampFormat, timestampLabel, timestampText, strftimeConversions,
    percent, Conversions.isModifier, newline]

private theorem digit_ne {n : ℕ} (h : n < 10) : digit n ≠ newline ∧ digit n ≠ 0 := by
  have hall : ∀ n < 10, digit n ≠ newline ∧ digit n ≠ 0 := by decide
  exact hall n h

private theorem ne_of_mem_timestampLabel :
    ∀ b ∈ timestampLabel, b ≠ newline ∧ b ≠ 0 := by
  simp [timestampLabel, newline]

private theorem ne_of_mem_decimal {n : ℕ} {b : UInt8} (h : b ∈ decimal n) :
    b ≠ newline ∧ b ≠ 0 := by
  obtain ⟨k, hk, rfl⟩ := List.mem_map.mp h
  exact digit_ne (Nat.digits_lt_base (by decide) (List.mem_reverse.mp hk))

private theorem ne_of_mem_twoDigits {n : ℕ} (hn : n < 100) {b : UInt8} (h : b ∈ twoDigits n) :
    b ≠ newline ∧ b ≠ 0 := by
  simp only [twoDigits, List.mem_cons, List.not_mem_nil, or_false] at h
  rcases h with rfl | rfl
  · exact digit_ne (by omega)
  · exact digit_ne (Nat.mod_lt n (by decide))

private theorem length_decimal_le {n : ℕ} (h : n < 10 ^ 10) : (decimal n).length ≤ 10 := by
  rw [decimal, List.length_map, List.length_reverse]
  exact (Nat.digits_length_le_iff (by decide) n).mpr h

private theorem strftime_timestampFormat (tm : Tm) :
    strftime 128 timestampFormat tm = some (timestampText tm ++ [newline]) := by
  have hyear := tm.tmYear_lt
  have hlen := length_decimal_le (n := tm.tmYear + 1900) (by omega)
  have hfit : (timestampText tm ++ [newline]).length < 128 := by
    simp [timestampText, timestampLabel, twoDigits]
    omega
  rw [strftime, render_timestampFormat, Option.filter_some, if_pos (decide_eq_true hfit)]

/-- **The line of a timestamp** fits its array, contains no NUL, and ends in its only newline. -/
theorem timestampLine_spec (tm : Tm) :
    timestampLine tm = some (timestampText tm ++ [newline]) ∧
      ∀ b ∈ timestampText tm, b ≠ newline ∧ b ≠ 0 := by
  constructor
  · unfold timestampLine
    exact strftime_timestampFormat tm
  · have hsec := tm.tmSec.isLt
    have hmin := tm.tmMin.isLt
    have hhour := tm.tmHour.isLt
    have hday := tm.tmMday.isLt
    have hmon := tm.tmMon.isLt
    simp only [timestampText, List.forall_mem_append, List.forall_mem_cons]
    refine ⟨ne_of_mem_timestampLabel, fun b hb ↦ ne_of_mem_decimal hb, by decide,
      fun b hb ↦ ne_of_mem_twoDigits (by omega) hb, by decide,
      fun b hb ↦ ne_of_mem_twoDigits (by omega) hb, by decide,
      fun b hb ↦ ne_of_mem_twoDigits (by omega) hb, by decide,
      fun b hb ↦ ne_of_mem_twoDigits (by omega) hb, by decide,
      fun b hb ↦ ne_of_mem_twoDigits (by omega) hb⟩

end Aesd
