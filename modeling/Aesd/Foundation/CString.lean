import Aesd.Foundation.Heap
import Mathlib.Data.List.Infix
import Mathlib.Data.List.TakeWhile
import Mathlib.Tactic.NormNum

/-!
# Strings that end in a NUL

The string functions of the C library. A string is the bytes of a block before its first NUL, and
looking for that NUL can leave the block or meet a byte that was never written (`ofBlock`). On the
bytes themselves the functions are total: `strstr` and `strchr` return where they found something,
as an offset, and `none` stands for `NULL`.

## Numbers

`atoi` is the conversion to `int` of a 64-bit `strtol`, which skips blanks, takes a sign, stops at
the first byte that is no digit, and saturates. A caller that stores the result as an unsigned
number of 32 bits gets back every number below `2 ^ 32` (`toUInt32_atoi_digits`): the conversion to
`int` and the one back cancel, although the number in between can be negative.
-/

namespace Aesd.CString

/-! ## Reading a string from memory -/

/-- The bytes before the first NUL of a sequence of cells. -/
def scan : List (Option UInt8) → Except Fault (List UInt8)
  | [] => .error .outOfBounds
  | none :: _ => .error .uninitialised
  | some b :: cells =>
    if b = 0 then .ok []
    else match scan cells with
      | .error e => .error e
      | .ok s => .ok (b :: s)

/-- The string at the start of a block. -/
def ofBlock (h : Heap UInt8) (p : ℕ) : Except Fault (List UInt8) :=
  match h.cells p with
  | none => .error .useAfterFree
  | some cells => scan cells

theorem scan_of_nul (xs : List UInt8) :
    scan ((xs ++ [0]).map some) = .ok (xs.takeWhile fun b ↦ b != 0) := by
  induction xs with
  | nil => rfl
  | cons b xs ih =>
    rw [List.cons_append, List.map_cons, scan, ih]
    by_cases hb : b = 0
    · rw [if_pos hb, List.takeWhile_cons_of_neg (by simp [hb])]
    · rw [if_neg hb, List.takeWhile_cons_of_pos (by simp [hb])]

theorem ofBlock_of_holds {h : Heap UInt8} {p : ℕ} {xs : List UInt8} (hb : h.Holds p (xs ++ [0])) :
    ofBlock h p = .ok (xs.takeWhile fun b ↦ b != 0) := by
  have hb' : h.cells p = some ((xs ++ [0]).map some) := hb
  rw [ofBlock, hb']
  exact scan_of_nul xs

/-! ## Searching -/

/-- `strstr(s, needle)`, as an offset into `s`. -/
def strstr (needle : List UInt8) : List UInt8 → Option ℕ
  | [] => if needle = [] then some 0 else none
  | b :: s => if needle.isPrefixOf (b :: s) then some 0 else (strstr needle s).map (· + 1)

/-- `strchr(s, c)` for a `c` that is not NUL, as an offset into `s`. -/
def strchr (s : List UInt8) (c : UInt8) : Option ℕ := s.findIdx? fun b ↦ b == c

/-- `memchr(s, c, n)`, as an offset into `s`. -/
def memchr (s : List UInt8) (c : UInt8) (n : ℕ) : Option ℕ := (s.take n).findIdx? fun b ↦ b == c

/-- `strrchr(s, c)` for a `c` that is not NUL, as an offset into `s`. -/
def strrchr (c : UInt8) : List UInt8 → Option ℕ
  | [] => none
  | b :: s =>
    match strrchr c s with
    | some i => some (i + 1)
    | none => if b = c then some 0 else none

theorem strstr_append (needle s : List UInt8) (hne : needle ≠ []) :
    strstr needle (needle ++ s) = some 0 := by
  cases needle with
  | nil => exact absurd rfl hne
  | cons b needle =>
    rw [List.cons_append, strstr, if_pos]
    rw [← List.cons_append, List.isPrefixOf_iff_prefix]
    exact List.prefix_append ..

theorem strstr_eq_none {needle s : List UInt8} (h : ¬needle.IsInfix s) :
    strstr needle s = none := by
  induction s with
  | nil =>
    rw [strstr, if_neg]
    rintro rfl
    exact h List.infix_rfl
  | cons b s ih =>
    rw [strstr, if_neg, ih, Option.map_none]
    · exact fun hs ↦ h (List.infix_cons hs)
    · rw [List.isPrefixOf_iff_prefix]
      exact fun hp ↦ h hp.isInfix

theorem strstr_eq_none_iff {needle s : List UInt8} :
    strstr needle s = none ↔ ¬needle.IsInfix s := by
  refine ⟨fun hnone hsub ↦ ?_, strstr_eq_none⟩
  induction s with
  | nil =>
    rw [List.infix_nil] at hsub
    rw [strstr, if_pos hsub] at hnone
    cases hnone
  | cons b s ih =>
    rw [strstr] at hnone
    split at hnone
    · cases hnone
    · rename_i hno
      rw [List.isPrefixOf_iff_prefix] at hno
      rw [Option.map_eq_none_iff] at hnone
      exact ih hnone ((List.infix_cons_iff.mp hsub).resolve_left hno)

theorem strchr_append {xs : List UInt8} {c : UInt8} (h : c ∉ xs) (ys : List UInt8) :
    strchr (xs ++ c :: ys) c = some xs.length := by
  have hnone : (xs.findIdx? fun b ↦ b == c) = none := by
    rw [List.findIdx?_eq_none_iff]
    intro b hb
    simp only [beq_eq_false_iff_ne, ne_eq]
    rintro rfl
    exact h hb
  rw [strchr, List.findIdx?_append, hnone, List.findIdx?_cons]
  simp

theorem strchr_ne_none_iff {s : List UInt8} {c : UInt8} : strchr s c ≠ none ↔ c ∈ s := by
  rw [strchr, Ne, List.findIdx?_eq_none_iff]
  simp

theorem strrchr_eq_none {s : List UInt8} {c : UInt8} (h : c ∉ s) : strrchr c s = none := by
  induction s with
  | nil => rfl
  | cons b s ih =>
    rw [List.mem_cons, not_or] at h
    rw [strrchr, ih h.2]
    exact if_neg (Ne.symm h.1)

theorem strrchr_append {ys : List UInt8} {c : UInt8} (h : c ∉ ys) (xs : List UInt8) :
    strrchr c (xs ++ c :: ys) = some xs.length := by
  induction xs with
  | nil =>
    rw [List.nil_append, strrchr, strrchr_eq_none h]
    exact if_pos rfl
  | cons b xs ih => rw [List.cons_append, strrchr, ih, List.length_cons]

/-! ## Numbers -/

def isspace (b : UInt8) : Bool := b == 32 || (9 ≤ b && b ≤ 13)

def isdigit (b : UInt8) : Bool := 48 ≤ b && b ≤ 57

/-- The value of a sequence of decimal digits. -/
def digitsValue (ds : List UInt8) : ℕ := ds.foldl (fun v d ↦ v * 10 + (d.toNat - 48)) 0

/-- `strtol(s, NULL, 10)`: white space, a sign, and as many digits as there are, saturated to the
range of a 64-bit `long`. -/
def strtol (s : List UInt8) : ℤ :=
  match s.dropWhile isspace with
  | 45 :: t => max (-(digitsValue (t.takeWhile isdigit) : ℤ)) (-2 ^ 63)
  | 43 :: t => min (digitsValue (t.takeWhile isdigit) : ℤ) (2 ^ 63 - 1)
  | t => min (digitsValue (t.takeWhile isdigit) : ℤ) (2 ^ 63 - 1)

def atoi (s : List UInt8) : Int32 := Int32.ofInt (strtol s)

private theorem isspace_of_isdigit {b : UInt8} (h : isdigit b = true) : isspace b = false := by
  rw [isdigit, Bool.and_eq_true, decide_eq_true_iff, decide_eq_true_iff] at h
  rw [isspace]
  simp only [Bool.or_eq_false_iff, beq_eq_false_iff_ne, Bool.and_eq_false_iff,
    decide_eq_false_iff_not]
  have h48 := UInt8.le_iff_toNat_le.mp h.1
  refine ⟨by rintro rfl; simp at h48, .inr fun h13 ↦ ?_⟩
  have h13 := UInt8.le_iff_toNat_le.mp h13
  exact absurd (h48.trans h13) (by decide)

theorem strtol_digits {ds rest : List UInt8} (hne : ds ≠ []) (hds : ∀ d ∈ ds, isdigit d = true)
    (hrest : ∀ b ∈ rest.head?, isdigit b = false) (hlt : digitsValue ds < 2 ^ 63) :
    strtol (ds ++ rest) = digitsValue ds := by
  have htake : (ds ++ rest).takeWhile isdigit = ds := by
    rw [List.takeWhile_append_of_pos hds]
    cases rest with
    | nil => rw [List.takeWhile_nil, List.append_nil]
    | cons b rest =>
      rw [List.takeWhile_cons_of_neg (by simp [hrest b rfl]), List.append_nil]
  obtain ⟨d, ds', rfl⟩ := List.exists_cons_of_ne_nil hne
  have hd := hds d List.mem_cons_self
  rw [strtol, List.cons_append, List.dropWhile_cons_of_neg (by simp [isspace_of_isdigit hd])]
  split
  · rename_i heq
    exact absurd (List.cons.inj heq).1 (by rintro rfl; simp [isdigit] at hd)
  · rename_i heq
    exact absurd (List.cons.inj heq).1 (by rintro rfl; simp [isdigit] at hd)
  · rw [← List.cons_append, htake]
    omega

/-- A number below `2 ^ 32` survives the detour over `int`. -/
theorem toUInt32_atoi_digits {ds rest : List UInt8} (hne : ds ≠ [])
    (hds : ∀ d ∈ ds, isdigit d = true) (hrest : ∀ b ∈ rest.head?, isdigit b = false)
    (hlt : digitsValue ds < 2 ^ 32) :
    (atoi (ds ++ rest)).toUInt32 = UInt32.ofNat (digitsValue ds) := by
  rw [atoi, strtol_digits hne hds hrest (by omega)]
  rfl

end Aesd.CString
