import Mathlib

/-!
# Numbers and blanks in texts

`int(text)` and `str.strip` as the interpreter computes them. `int` accepts the decimal digits of
every script, single underscores between digits, a sign and surrounding blanks, and refuses texts
of more than 4300 digits. The separators U+001C to U+001F are blanks to `strip` but not to `int`.

## Main definitions

* `pyInt?`, `pyStrip`.

## Main results

* `pyInt?_toString`: `int` reads back what `str` wrote.
-/

namespace Morphflow

/-- The code points of the zeros; each is followed by the nine other digits of its script. -/
def digitZeros : List ℕ :=
  [0x30, 0x660, 0x6f0, 0x7c0, 0x966, 0x9e6, 0xa66, 0xae6, 0xb66, 0xbe6, 0xc66, 0xce6, 0xd66,
    0xde6, 0xe50, 0xed0, 0xf20, 0x1040, 0x1090, 0x17e0, 0x1810, 0x1946, 0x19d0, 0x1a80, 0x1a90,
    0x1b50, 0x1bb0, 0x1c40, 0x1c50, 0xa620, 0xa8d0, 0xa900, 0xa9d0, 0xa9f0, 0xaa50, 0xabf0,
    0xff10, 0x104a0, 0x10d30, 0x11066, 0x110f0, 0x11136, 0x111d0, 0x112f0, 0x11450, 0x114d0,
    0x11650, 0x116c0, 0x11730, 0x118e0, 0x11950, 0x11c50, 0x11d50, 0x11da0, 0x11f50, 0x16a60,
    0x16ac0, 0x16b50, 0x1d7ce, 0x1d7d8, 0x1d7e2, 0x1d7ec, 0x1d7f6, 0x1e140, 0x1e2f0, 0x1e4f0,
    0x1e950, 0x1fbf0]

/-- The value of a decimal digit of any script. -/
def decimalDigit? (c : Char) : Option ℕ :=
  (digitZeros.find? fun z => z ≤ c.toNat && c.toNat < z + 10).map (c.toNat - ·)

/-- The blanks of both functions. -/
def isBlank (c : Char) : Bool :=
  let n := c.toNat
  (9 ≤ n && n ≤ 13) || n == 0x20 || n == 0x85 || n == 0xa0 || n == 0x1680 ||
    (0x2000 ≤ n && n ≤ 0x200a) || n == 0x2028 || n == 0x2029 || n == 0x202f || n == 0x205f ||
    n == 0x3000

/-- `str.isspace` of one character. -/
def isSpace (c : Char) : Bool :=
  isBlank c || (0x1c ≤ c.toNat && c.toNat ≤ 0x1f)

/-- A list without the leading and the trailing elements that meet the condition. -/
def trim {α : Type*} (p : α → Bool) (xs : List α) : List α :=
  ((xs.dropWhile p).reverse.dropWhile p).reverse

/-- `str.strip()`. -/
def pyStrip (s : String) : String :=
  String.ofList (trim isSpace s.toList)

/-- The values of the digits of a text, at most one underscore between two of them. -/
def digits? : List Char → Option (List ℕ)
  | [] => none
  | [c] => (decimalDigit? c).map fun d => [d]
  | c :: '_' :: rest => (decimalDigit? c).bind fun d => (digits? rest).map (d :: ·)
  | c :: rest => (decimalDigit? c).bind fun d => (digits? rest).map (d :: ·)

/-- The number that digits stand for; the interpreter refuses more than 4300 of them. -/
def natOfDigits? (cs : List Char) : Option ℕ :=
  (digits? cs).bind fun ds =>
    if ds.length ≤ 4300 then some (ds.foldl (fun n d => 10 * n + d) 0) else none

/-- `int(text)`, `none` where it raises a `ValueError`. -/
def pyInt? (s : String) : Option ℤ :=
  match trim isBlank s.toList with
  | '-' :: cs => (natOfDigits? cs).map fun n => -(n : ℤ)
  | '+' :: cs => (natOfDigits? cs).map fun n => (n : ℤ)
  | cs => (natOfDigits? cs).map fun n => (n : ℤ)

example : [" -1_0\n", "+٣", "1__0", "", "0x1"].map pyInt? =
    [some (-10), some 3, none, none, none] := by
  decide

/-! ### Texts of numbers -/

theorem decimalDigit?_of_isDigit {c : Char} (h : c.isDigit) :
    decimalDigit? c = some (c.toNat - '0'.toNat) := by
  have hrange : 48 ≤ c.toNat ∧ c.toNat ≤ 57 := by
    simpa [Char.isDigit, UInt32.le_iff_toNat_le] using h
  have hzero : digitZeros.find? (fun z => z ≤ c.toNat && c.toNat < z + 10) = some 0x30 :=
    List.find?_cons_of_pos (by simpa using ⟨hrange.1, by omega⟩)
  rw [decimalDigit?, hzero]
  rfl

theorem isBlank_of_isDigit {c : Char} (h : c.isDigit) : isBlank c = false := by
  have hrange : 48 ≤ c.toNat ∧ c.toNat ≤ 57 := by
    simpa [Char.isDigit, UInt32.le_iff_toNat_le] using h
  simp only [isBlank, Bool.or_eq_false_iff, Bool.and_eq_false_iff, decide_eq_false_iff_not,
    beq_eq_false_iff_ne]
  omega

theorem trim_of_forall {α : Type*} {p : α → Bool} {xs : List α} (h : ∀ x ∈ xs, p x = false) :
    trim p xs = xs := by
  have hdrop : ∀ ys : List α, (∀ y ∈ ys, p y = false) → ys.dropWhile p = ys := by
    intro ys hys
    cases ys with
    | nil => rfl
    | cons y ys => exact List.dropWhile_cons_of_neg (by simp [hys y (List.mem_cons_self ..)])
  rw [trim, hdrop xs h, hdrop, List.reverse_reverse]
  exact fun x hx => h x (List.mem_reverse.mp hx)

theorem digits?_of_isDigit {cs : List Char} (hne : cs ≠ []) (h : ∀ c ∈ cs, c.isDigit = true) :
    digits? cs = some (cs.map fun c => c.toNat - '0'.toNat) := by
  fun_induction digits? cs with
  | case1 => exact absurd rfl hne
  | case2 c => simp [decimalDigit?_of_isDigit (h c (List.mem_cons_self ..))]
  | case3 c rest ih =>
    have hdigit := h '_' (List.mem_cons_of_mem _ (List.mem_cons_self ..))
    cases hdigit
  | case4 c rest hrest _ ih =>
    have hrec := ih (by simpa using hrest) fun d hd => h d (List.mem_cons_of_mem _ hd)
    simp [decimalDigit?_of_isDigit (h c (List.mem_cons_self ..)), hrec]

/-- The decimal digits of a number stand for it. -/
theorem natOfDigits?_toDigits {n k : ℕ} (hpos : 0 < k) (hk : k ≤ 4300) (hn : n < 10 ^ k) :
    natOfDigits? (Nat.toDigits 10 n) = some n := by
  have hdigits : digits? (Nat.toDigits 10 n) =
      some ((Nat.toDigits 10 n).map fun c => c.toNat - '0'.toNat) :=
    digits?_of_isDigit Nat.toDigits_ne_nil fun c hc =>
      Nat.isDigit_of_mem_toDigits (by decide) (by decide) hc
  have hlength : (Nat.toDigits 10 n).length ≤ k :=
    (Nat.length_toDigits_le_iff (by decide) hpos).mpr hn
  rw [natOfDigits?, hdigits, Option.bind_some, List.length_map, if_pos (hlength.trans hk),
    List.foldl_map, ← Nat.ofDigitChars_eq_foldl, Nat.ofDigitChars_ten_toDigits]

/-- `int(str(n))`, for a number of at most 4300 digits. -/
theorem pyInt?_toString {n k : ℕ} (hpos : 0 < k) (hk : k ≤ 4300) (hn : n < 10 ^ k) :
    pyInt? (toString n) = some (n : ℤ) := by
  have hdigit : ∀ c ∈ Nat.toDigits 10 n, c.isDigit = true := fun c hc =>
    Nat.isDigit_of_mem_toDigits (by decide) (by decide) hc
  have htrim : trim isBlank (toString n).toList = Nat.toDigits 10 n := by
    rw [Nat.toString_eq_ofList_toDigits, String.toList_ofList]
    exact trim_of_forall fun c hc => isBlank_of_isDigit (hdigit c hc)
  unfold pyInt?
  rw [htrim]
  split
  · next cs heq =>
    have hsign := hdigit '-' (heq ▸ List.mem_cons_self ..)
    cases hsign
  · next cs heq =>
    have hsign := hdigit '+' (heq ▸ List.mem_cons_self ..)
    cases hsign
  · rw [natOfDigits?_toDigits hpos hk hn]
    rfl
end Morphflow
