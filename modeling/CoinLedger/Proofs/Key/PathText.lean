import Mathlib.Algebra.Group.Nat.Defs
import Mathlib.Data.List.Basic
import CoinLedger.Key.Path

/-! # How the text of a path is read

A step is read of the digits in its text (`Step.parse?_eq`, `digitsOf`), and a path of the pieces of
its text one by one (`parseChars?_eq`).  Here digits stand somewhere in such a text, next to other
characters: they are all in one piece (`exists_pieces_append`), the other pieces do not depend on
them, and `decimal_digitsOf_append` says which number they make in theirs.  If this piece is the
text of a step with some digits, it is one with all that do not make too large a number
(`Step.parse?_append`). -/

namespace CoinLedger.Key

/-! ### Decimal numbers -/

theorem decimal_eq_ofDigitChars (cs : List Char) : decimal cs = Nat.ofDigitChars 10 cs 0 := by
  have hfold : ∀ (cs : List Char) (n : Nat),
      cs.foldl (fun acc c => acc * 10 + (c.toNat - 48)) n = Nat.ofDigitChars 10 cs n := by
    intro cs
    induction cs with
    | nil => exact fun n => Nat.ofDigitChars_nil.symm
    | cons c cs ih =>
        intro n
        rw [List.foldl_cons, ih, Nat.ofDigitChars_cons, Nat.mul_comm]
        rfl
  exact hfold cs 0

theorem decimal_append (xs ys : List Char) :
    decimal (xs ++ ys) = decimal xs * 10 ^ ys.length + decimal ys := by
  simp only [decimal_eq_ofDigitChars, Nat.ofDigitChars_append]
  rw [Nat.ofDigitChars_eq_ofDigitChars_zero, Nat.mul_comm]

theorem decimal_toDigits (n : Nat) : decimal (Nat.toDigits 10 n) = n := by
  rw [decimal_eq_ofDigitChars, Nat.ofDigitChars_ten_toDigits]

/-! ### Digits -/

/-- At least one decimal digit, and nothing else. -/
def Digits (cs : List Char) : Prop := cs ≠ [] ∧ ∀ c ∈ cs, c.isDigit = true

theorem digits_toDigits (n : Nat) : Digits (Nat.toDigits 10 n) :=
  ⟨Nat.toDigits_ne_nil, fun _ hc => Nat.isDigit_of_mem_toDigits (by omega) (by omega) hc⟩

theorem Digits.ne {cs : List Char} (h : Digits cs) {c d : Char} (hc : c ∈ cs)
    (hd : d.isDigit = false) : c ≠ d := by
  rintro rfl
  rw [h.2 c hc] at hd
  cases hd

theorem Digits.notMem {cs : List Char} (h : Digits cs) {d : Char} (hd : d.isDigit = false) :
    d ∉ cs := fun hmem => h.ne hmem hd rfl

theorem isDecimal_iff {cs : List Char} : isDecimal cs = true ↔ Digits cs := by
  have hdigit : ∀ c : Char, (('0' ≤ c && c ≤ '9') = true ↔ c.isDigit = true) := by
    intro c
    simp [Char.isDigit, Char.le_def]
  rw [isDecimal, Bool.and_eq_true, List.all_eq_true, Digits]
  simp only [hdigit]
  simp

/-- Whether a text with digits in it is a number does not depend on which digits they are. -/
theorem isDecimal_append {v w : List Char} (hv : Digits v) {a b : List Char}
    (h : isDecimal (a ++ (w ++ b)) = true) : isDecimal (a ++ (v ++ b)) = true := by
  rw [isDecimal_iff] at h ⊢
  refine ⟨by simp [hv.1], fun c hc => ?_⟩
  rcases List.mem_append.1 hc with hc | hc
  · exact h.2 c (List.mem_append_left _ hc)
  · rcases List.mem_append.1 hc with hc | hc
    · exact hv.2 c hc
    · exact h.2 c (List.mem_append_right _ (List.mem_append_right _ hc))

/-! ### One step -/

/-- A number without a plus sign in front. -/
def withoutSign (cs : List Char) : List Char :=
  match cs with
  | '+' :: rest => rest
  | _ => cs

theorem withoutSign_cons (c : Char) (cs : List Char) :
    withoutSign (c :: cs) = if c = '+' then cs else c :: cs := by
  by_cases hc : c = '+'
  · subst hc
    rfl
  · rw [if_neg hc, withoutSign]
    intro rest heq
    exact hc (List.cons.inj heq).1

theorem withoutSign_append {v : List Char} (hv : Digits v) (a b : List Char) :
    withoutSign (a ++ (v ++ b)) = withoutSign a ++ (v ++ b) := by
  cases a with
  | nil =>
      obtain ⟨d, ds, rfl⟩ := List.exists_cons_of_ne_nil hv.1
      have hd : d ≠ '+' := hv.ne List.mem_cons_self (by decide)
      rw [List.nil_append, List.cons_append, withoutSign_cons, if_neg hd]
      rfl
  | cons c a =>
      rw [List.cons_append, withoutSign_cons, withoutSign_cons]
      split <;> rfl

theorem splitMark_append {v : List Char} (hv : Digits v) (a b : List Char) :
    splitMark (a ++ (v ++ b)) = (a ++ (v ++ (splitMark b).1), (splitMark b).2) := by
  rcases List.eq_nil_or_concat' b with rfl | ⟨b, c, rfl⟩
  · -- the last character is a digit of `v` and no mark
    obtain ⟨ds, d, rfl⟩ := (List.eq_nil_or_concat' v).resolve_left hv.1
    have hmark : ¬(d = '\'' ∨ d = 'h') := by
      have hmem : d ∈ ds ++ [d] := by simp
      rintro (hd | hd)
      · exact hv.ne hmem (by decide) hd
      · exact hv.ne hmem (by decide) hd
    have hlast : (a ++ (ds ++ [d] ++ [])).getLast? = some d := by simp
    have hnil : splitMark [] = ([], false) := rfl
    rw [splitMark, hlast, hnil]
    simp only [if_neg hmark]
  · have hlast : (a ++ (v ++ (b ++ [c]))).getLast? = some c := by simp
    have hlast' : (b ++ [c]).getLast? = some c := by simp
    have hdrop : (a ++ (v ++ (b ++ [c]))).dropLast = a ++ (v ++ b) := by
      rw [← List.append_assoc, ← List.append_assoc, List.dropLast_concat, List.append_assoc]
    rw [splitMark, hlast, splitMark, hlast']
    simp only [hdrop, List.dropLast_concat]
    split <;> rfl

/-- The digits in the text of a step, without the mark and the sign. -/
def digitsOf (cs : List Char) : List Char := withoutSign (splitMark cs).1

/-- A step is read of digits that make a small number, and of nothing else. -/
theorem Step.parse?_eq (cs : List Char) : Step.parse? cs =
    if isDecimal (digitsOf cs) then Step.ofNumber? (decimal (digitsOf cs)) (splitMark cs).2
    else none := by
  have hnumber : number? (splitMark cs).1 =
      if isDecimal (digitsOf cs) then some (decimal (digitsOf cs)) else none := rfl
  have hdef : Step.parse? cs =
      (number? (splitMark cs).1).bind fun n => Step.ofNumber? n (splitMark cs).2 := rfl
  rw [hdef, hnumber]
  split <;> rfl

theorem Step.ofNumber?_eq_some_iff {number : Nat} {hardened : Bool} {s : Step} :
    Step.ofNumber? number hardened = some s ↔ s.number = number ∧ s.hardened = hardened := by
  unfold Step.ofNumber?
  constructor
  · intro h
    split at h
    · rw [← Option.some.inj h]
      exact ⟨rfl, rfl⟩
    · cases h
  · rintro ⟨rfl, rfl⟩
    rw [dif_pos s.number_lt]

theorem Step.exists_ofNumber?_iff {number : Nat} (hardened : Bool) :
    (∃ s, Step.ofNumber? number hardened = some s) ↔ number < 2 ^ 31 := by
  constructor
  · rintro ⟨s, hs⟩
    rw [← (Step.ofNumber?_eq_some_iff.1 hs).1]
    exact s.number_lt
  · intro h
    exact ⟨⟨number, hardened, h⟩, Step.ofNumber?_eq_some_iff.2 ⟨rfl, rfl⟩⟩

theorem Step.number_parse? {cs : List Char} {s : Step} (h : Step.parse? cs = some s) :
    s.number = decimal (digitsOf cs) := by
  rw [Step.parse?_eq] at h
  split at h
  · exact (Step.ofNumber?_eq_some_iff.1 h).1
  · cases h

theorem digitsOf_append {v : List Char} (hv : Digits v) (a b : List Char) :
    digitsOf (a ++ (v ++ b)) = withoutSign a ++ (v ++ (splitMark b).1) := by
  rw [digitsOf, splitMark_append hv, withoutSign_append hv]

/-- The number that is written where digits stand between two texts. -/
theorem decimal_digitsOf_append {v : List Char} (hv : Digits v) (a b : List Char) :
    decimal (digitsOf (a ++ (v ++ b))) =
      (decimal (withoutSign a) * 10 ^ v.length + decimal v) * 10 ^ (splitMark b).1.length +
        decimal (splitMark b).1 := by
  rw [digitsOf_append hv, decimal_append, decimal_append, List.length_append, Nat.pow_add,
    ← Nat.mul_assoc, ← Nat.add_assoc, Nat.add_mul]

/-- If a step is read with some digits in its text, then with all digits that do not make too large
a number.  Only the number depends on them. -/
theorem Step.parse?_append {v w : List Char} (hv : Digits v) (hw : Digits w) {l r : List Char}
    {s : Step} (h : Step.parse? (l ++ (w ++ r)) = some s) :
    Step.parse? (l ++ (v ++ r)) =
      Step.ofNumber? (decimal (digitsOf (l ++ (v ++ r)))) (splitMark r).2 := by
  have hdecimal : isDecimal (digitsOf (l ++ (w ++ r))) = true := by
    by_contra hnot
    rw [Step.parse?_eq, if_neg hnot] at h
    cases h
  rw [digitsOf_append hw] at hdecimal
  have hmark : (splitMark (l ++ (v ++ r))).2 = (splitMark r).2 := by rw [splitMark_append hv]
  rw [Step.parse?_eq, hmark, digitsOf_append hv, if_pos (isDecimal_append hv hdecimal)]

/-! ### The piece of a path -/

theorem pieces_ne_nil (sep : Char) : ∀ cs : List Char, pieces sep cs ≠ []
  | [] => by simp [pieces]
  | c :: cs => by
      rw [pieces]
      split
      · simp
      · split <;> simp

theorem mem_of_mem_pieces {sep c : Char} : ∀ {cs piece : List Char}, piece ∈ pieces sep cs →
    c ∈ piece → c ∈ cs
  | [], piece, hpiece, hc => by
      rw [List.mem_singleton.1 hpiece] at hc
      exact hc
  | x :: cs, piece, hpiece, hc => by
      rw [pieces] at hpiece
      split at hpiece
      · rcases List.mem_cons.1 hpiece with rfl | hpiece
        · cases hc
        · exact List.mem_cons_of_mem x (mem_of_mem_pieces hpiece hc)
      · obtain ⟨first, rest, hcs⟩ := List.exists_cons_of_ne_nil (pieces_ne_nil sep cs)
        rw [hcs] at hpiece
        rcases List.mem_cons.1 hpiece with rfl | hpiece
        · rcases List.mem_cons.1 hc with rfl | hc
          · exact List.mem_cons_self
          · exact List.mem_cons_of_mem x (mem_of_mem_pieces (hcs ▸ List.mem_cons_self) hc)
        · exact List.mem_cons_of_mem x
            (mem_of_mem_pieces (hcs ▸ List.mem_cons_of_mem first hpiece) hc)

theorem pieces_of_notMem {sep : Char} : ∀ {cs : List Char}, sep ∉ cs → pieces sep cs = [cs]
  | [], _ => rfl
  | c :: cs, h => by
      have hc : c ≠ sep := fun heq => h (heq ▸ List.mem_cons_self)
      have hcs := pieces_of_notMem fun hmem => h (List.mem_cons_of_mem c hmem)
      rw [pieces, if_neg hc, hcs]

/-- Between two texts the last piece of the first and the first piece of the second are joined. -/
theorem pieces_append {sep : Char} {ys b : List Char} {bs : List (List Char)}
    (hys : pieces sep ys = b :: bs) :
    ∀ {xs : List Char} {as : List (List Char)} {a : List Char}, pieces sep xs = as ++ [a] →
      pieces sep (xs ++ ys) = as ++ (a ++ b) :: bs
  | [], as, a, hxs => by
      have hnil : as ++ [a] = [] ++ [[]] := hxs.symm
      obtain ⟨rfl, ha⟩ := List.append_inj' hnil rfl
      obtain rfl : a = [] := List.singleton_inj.1 ha
      exact hys
  | c :: xs, as, a, hxs => by
      rw [pieces] at hxs
      rw [List.cons_append, pieces]
      split at hxs
      · rename_i hc
        rw [if_pos hc]
        cases as with
        | nil => exact absurd (List.cons.inj hxs).2 (pieces_ne_nil sep xs)
        | cons a₀ as =>
            obtain ⟨rfl, hrest⟩ := List.cons.inj hxs
            rw [pieces_append hys hrest]
            rfl
      · rename_i hc
        rw [if_neg hc]
        obtain ⟨first, rest, hxs'⟩ := List.exists_cons_of_ne_nil (pieces_ne_nil sep xs)
        rw [hxs'] at hxs
        cases as with
        | nil =>
            obtain ⟨rfl, rfl⟩ := List.cons.inj hxs
            have hnil : pieces sep xs = [] ++ [first] := hxs'
            rw [pieces_append hys hnil]
            rfl
        | cons a₀ as =>
            obtain ⟨rfl, rfl⟩ := List.cons.inj hxs
            have hcons : pieces sep xs = (first :: as) ++ [a] := hxs'
            rw [pieces_append hys hcons]
            rfl

/-- A text without separators between two texts joins a last piece and a first one. -/
theorem exists_pieces_append (sep : Char) (a b : List Char) : ∃ before l r after,
    ∀ v, sep ∉ v → pieces sep (a ++ (v ++ b)) = before ++ (l ++ (v ++ r)) :: after := by
  obtain ⟨before, l, ha⟩ :=
    (List.eq_nil_or_concat' (pieces sep a)).resolve_left (pieces_ne_nil sep a)
  obtain ⟨r, after, hb⟩ := List.exists_cons_of_ne_nil (pieces_ne_nil sep b)
  refine ⟨before, l, r, after, ?_⟩
  intro v hv
  have hsingle : pieces sep v = [] ++ [v] := pieces_of_notMem hv
  have hright : pieces sep (v ++ b) = (v ++ r) :: after := pieces_append hb hsingle
  exact pieces_append hright ha

/-- What is read of the parts of a list that has a result. -/
theorem mapM_append_cons_some {α β : Type} {f : α → Option β} {xs ys : List α} {x : α}
    {bs : List β} (h : (xs ++ x :: ys).mapM f = some bs) :
    ∃ as b cs, xs.mapM f = some as ∧ f x = some b ∧ ys.mapM f = some cs ∧ bs = as ++ b :: cs := by
  rw [List.mapM_append, Option.bind_eq_bind, Option.bind_eq_some_iff] at h
  obtain ⟨as, has, h⟩ := h
  obtain ⟨rest, hrest, h⟩ := Option.bind_eq_some_iff.1 h
  rw [List.mapM_cons] at hrest
  obtain ⟨b, hb, hrest⟩ := Option.bind_eq_some_iff.1 hrest
  obtain ⟨cs, hcs, hrest⟩ := Option.bind_eq_some_iff.1 hrest
  obtain rfl : b :: cs = rest := Option.some.inj hrest
  exact ⟨as, b, cs, has, hb, hcs, (Option.some.inj h).symm⟩

theorem mapM_append_cons_of_some {α β : Type} {f : α → Option β} {xs ys : List α} {x : α}
    {as cs : List β} (has : xs.mapM f = some as) (hcs : ys.mapM f = some cs) :
    (xs ++ x :: ys).mapM f = (f x).map fun b => as ++ b :: cs := by
  rw [List.mapM_append, has, List.mapM_cons, hcs]
  cases f x <;> rfl

theorem length_of_mapM_some {α β : Type} {f : α → Option β} : ∀ {xs : List α} {bs : List β},
    xs.mapM f = some bs → bs.length = xs.length
  | [], bs, h => by
      obtain rfl : [] = bs := Option.some.inj h
      rfl
  | x :: xs, bs, h => by
      rw [List.mapM_cons] at h
      obtain ⟨b, -, h⟩ := Option.bind_eq_some_iff.1 h
      obtain ⟨cs, hcs, h⟩ := Option.bind_eq_some_iff.1 h
      obtain rfl : b :: cs = bs := Option.some.inj h
      rw [List.length_cons, List.length_cons, length_of_mapM_some hcs]

/-! ### The text of a path -/

/-- The text of a path without the `m/` that may stand in front. -/
def withoutRoot (cs : List Char) : List Char :=
  match cs with
  | 'm' :: '/' :: rest => rest
  | _ => cs

theorem withoutRoot_of_ne {cs : List Char} (h : ∀ rest, cs ≠ 'm' :: '/' :: rest) :
    withoutRoot cs = cs := by
  unfold withoutRoot
  split
  · rename_i rest
    exact absurd rfl (h rest)
  · rfl

theorem mem_of_mem_withoutRoot {cs : List Char} {c : Char} (h : c ∈ withoutRoot cs) : c ∈ cs := by
  unfold withoutRoot at h
  split at h
  · exact List.mem_cons_of_mem _ (List.mem_cons_of_mem _ h)
  · exact h

/-- What is put behind a text does not become a part of the `m/` in front. -/
theorem withoutRoot_append_cons {c : Char} (hm : c ≠ 'm') (hslash : c ≠ '/') (a cs : List Char) :
    withoutRoot (a ++ c :: cs) = withoutRoot a ++ c :: cs := by
  rcases a with _ | ⟨x, _ | ⟨y, a⟩⟩
  · exact withoutRoot_of_ne fun rest heq => hm (List.cons.inj heq).1
  · have hx : withoutRoot (x :: c :: cs) = x :: c :: cs :=
      withoutRoot_of_ne fun rest heq => hslash (List.cons.inj (List.cons.inj heq).2).1
    have hsingle : withoutRoot [x] = [x] := withoutRoot_of_ne fun rest heq => by
      cases (List.cons.inj heq).2
    rw [List.singleton_append, hx, hsingle, List.singleton_append]
  · by_cases hroot : x = 'm' ∧ y = '/'
    · obtain ⟨rfl, rfl⟩ := hroot
      rfl
    · have hne : ∀ zs rest : List Char, x :: y :: zs ≠ 'm' :: '/' :: rest := fun _ _ heq =>
        hroot ⟨(List.cons.inj heq).1, (List.cons.inj (List.cons.inj heq).2).1⟩
      rw [withoutRoot_of_ne (hne a)]
      exact withoutRoot_of_ne (hne (a ++ c :: cs))

theorem parseChars?_eq (cs : List Char) : Path.parseChars? cs =
    if cs = [] ∨ cs = ['m'] ∨ cs = ['m', '/'] then some []
    else (pieces '/' (withoutRoot cs)).mapM Step.parse? := rfl

/-- A text with digits in it is not empty, and its pieces are read one by one. -/
theorem parseChars?_append {v : List Char} (hv : Digits v) (a b : List Char) :
    Path.parseChars? (a ++ (v ++ b)) =
      (pieces '/' (withoutRoot a ++ (v ++ b))).mapM Step.parse? := by
  obtain ⟨d, ds, rfl⟩ := List.exists_cons_of_ne_nil hv.1
  have hm : d ≠ 'm' := hv.ne List.mem_cons_self (by decide)
  have hslash : d ≠ '/' := hv.ne List.mem_cons_self (by decide)
  have hlong : ∀ cs : List Char, d ∈ cs → ¬(cs = [] ∨ cs = ['m'] ∨ cs = ['m', '/']) := by
    rintro cs hd (rfl | rfl | rfl)
    · cases hd
    · exact hm (List.mem_singleton.1 hd)
    · rcases List.mem_cons.1 hd with heq | hd
      · exact hm heq
      · exact hslash (List.mem_singleton.1 hd)
  rw [parseChars?_eq, if_neg (hlong _ (by simp)), List.cons_append,
    withoutRoot_append_cons hm hslash]

end CoinLedger.Key
