import CoinLedger.Proofs.Key.PathText

/-! # What a template makes of an index

A template has one `*`, and the decimal digits of an index take its place.  It is checked with one
index, zero, and used with all others.  The digits stand in one part of the template, in which there
may be other digits, a sign and a mark (`parse?_fill_eq_mapM`).  The number that they make there all
together, `wildcardNumber`, is not the index itself, but grows with it (`wildcardNumber_eq`), and it
may be too large for a step.

Nothing else can go wrong, and nothing else depends on the index: the paths of an accepted template
are all the same but for the number of one step (`parse?_fill_eq`), and different indexes lead to
different paths (`parse?_fill_injective`).  The result is `checkTemplate_fills`. -/

namespace CoinLedger.Key

/-! ### Templates -/

theorem checkTemplate_eq_ok_iff {template : String} : checkTemplate template = .ok () ↔
    template.toList.count '*' = 1 ∧ (Path.parse? (fill template "0")).isSome = true := by
  unfold checkTemplate
  split <;> simp [*]

theorem eq_of_checkTemplate_eq_error {template : String} {e : Error}
    (h : checkTemplate template = .error e) : e = .invalidDerivationPath template := by
  unfold checkTemplate at h
  split at h
  · cases h
  · exact (Except.error.inj h).symm

theorem exists_of_count_eq_one {template : List Char} (h : template.count '*' = 1) :
    ∃ a b, template = a ++ '*' :: b ∧ '*' ∉ a ∧ '*' ∉ b := by
  have hmem : '*' ∈ template := List.count_pos_iff.1 (by omega)
  obtain ⟨a, b, rfl, ha⟩ := List.eq_append_cons_of_mem hmem
  rw [List.count_append, List.count_cons_self] at h
  exact ⟨a, b, rfl, ha, List.count_eq_zero.1 (by omega)⟩

theorem fillChars_of_notMem {template : List Char} (h : '*' ∉ template) (value : List Char) :
    fillChars value template = template := by
  induction template with
  | nil => rfl
  | cons c cs ih =>
      have hc : c ≠ '*' := fun heq => h (heq ▸ List.mem_cons_self)
      have hcs := ih fun hmem => h (List.mem_cons_of_mem c hmem)
      rw [fillChars, List.flatMap_cons, if_neg hc]
      exact congrArg (c :: ·) hcs

theorem fillChars_append_cons {a b : List Char} (ha : '*' ∉ a) (hb : '*' ∉ b)
    (value : List Char) : fillChars value (a ++ '*' :: b) = a ++ (value ++ b) := by
  have happend : fillChars value (a ++ '*' :: b) =
      fillChars value a ++ (value ++ fillChars value b) := by
    simp [fillChars]
  rw [happend, fillChars_of_notMem ha, fillChars_of_notMem hb]

/-- The text that is read as a path once an index has taken the place of the wildcard. -/
theorem parse?_fill {template : String} {a b : List Char}
    (htemplate : template.toList = a ++ '*' :: b) (ha : '*' ∉ a) (hb : '*' ∉ b) (i : Nat) :
    Path.parse? (fill template (toString i)) =
      Path.parseChars? (a ++ (Nat.toDigits 10 i ++ b)) := by
  rw [Path.parse?, fill, String.toList_ofList, htemplate, fillChars_append_cons ha hb]
  simp

/-! ### The part with the wildcard -/

/-- The parts of a template, one for each step. -/
def parts (template : String) : List (List Char) := pieces '/' (withoutRoot template.toList)

/-- The place of the part in which the wildcard stands. -/
def wildcardPlace (template : String) : Nat := (parts template).findIdx (·.contains '*')

/-- The part in which the wildcard stands, with an index in its place. -/
def wildcardPart (template : String) (i : Nat) : List Char :=
  fillChars (toString i).toList ((parts template)[wildcardPlace template]?.getD [])

/-- The number that is written in this part, without the sign and the mark. -/
def wildcardNumber (template : String) (i : Nat) : Nat :=
  decimal (digitsOf (wildcardPart template i))

section

variable {template : String} {before after : List (List Char)} {l r : List Char}

theorem wildcardPlace_eq (hparts : parts template = before ++ (l ++ '*' :: r) :: after)
    (hbefore : ∀ part ∈ before, '*' ∉ part) : wildcardPlace template = before.length := by
  have hnone : before.findIdx (·.contains '*') = before.length :=
    List.findIdx_eq_length_of_false fun part hpart => by simpa using hbefore part hpart
  rw [wildcardPlace, hparts, List.findIdx_append, hnone, if_neg (Nat.lt_irrefl _),
    List.findIdx_cons]
  simp

theorem wildcardPart_eq (hparts : parts template = before ++ (l ++ '*' :: r) :: after)
    (hbefore : ∀ part ∈ before, '*' ∉ part) (hl : '*' ∉ l) (hr : '*' ∉ r) (i : Nat) :
    wildcardPart template i = l ++ (Nat.toDigits 10 i ++ r) := by
  have hpart : (parts template)[wildcardPlace template]?.getD [] = l ++ '*' :: r := by
    rw [wildcardPlace_eq hparts hbefore, hparts, List.getElem?_append_right (Nat.le_refl _),
      Nat.sub_self]
    rfl
  rw [wildcardPart, hpart, fillChars_append_cons hl hr]
  simp

/-- The wildcard stands in one part, and a text without separators that takes its place stays in
this part. -/
theorem exists_parts_eq {a b : List Char} (htemplate : template.toList = a ++ '*' :: b)
    (ha : '*' ∉ a) (hb : '*' ∉ b) : ∃ before l r after,
      parts template = before ++ (l ++ '*' :: r) :: after ∧ (∀ part ∈ before, '*' ∉ part) ∧
        '*' ∉ l ∧ '*' ∉ r ∧ ∀ v, '/' ∉ v →
          pieces '/' (withoutRoot a ++ (v ++ b)) = before ++ (l ++ (v ++ r)) :: after := by
  obtain ⟨before, l, r, after, hpieces⟩ := exists_pieces_append '/' (withoutRoot a) b
  -- without the wildcard, the pieces have only the characters of the text around it
  have hnone : ∀ piece ∈ before ++ (l ++ r) :: after, '*' ∉ piece := by
    intro piece hpiece hstar
    have hmem : '*' ∈ withoutRoot a ++ ([] ++ b) :=
      mem_of_mem_pieces (hpieces [] (by simp) ▸ hpiece) hstar
    rcases List.mem_append.1 hmem with hmem | hmem
    · exact ha (mem_of_mem_withoutRoot hmem)
    · exact hb hmem
  have hmiddle : '*' ∉ l ++ r := hnone _ (by simp)
  refine ⟨before, l, r, after, ?_, fun part hpart => hnone part (List.mem_append_left _ hpart),
    fun hl => hmiddle (List.mem_append_left _ hl), fun hr => hmiddle (List.mem_append_right _ hr),
    hpieces⟩
  rw [parts, htemplate, withoutRoot_append_cons (by decide) (by decide)]
  exact hpieces ['*'] (by decide)

/-- The path of an index is read of the part with the wildcard and of the other parts, in which the
index does not occur. -/
theorem parse?_fill_eq_mapM (h : template.toList.count '*' = 1) : ∃ before l r after,
    wildcardPlace template = before.length ∧
      (∀ i, wildcardPart template i = l ++ (Nat.toDigits 10 i ++ r)) ∧
      ∀ i, Path.parse? (fill template (toString i)) =
        (before ++ wildcardPart template i :: after).mapM Step.parse? := by
  obtain ⟨a, b, htemplate, ha, hb⟩ := exists_of_count_eq_one h
  obtain ⟨before, l, r, after, hparts, hbefore, hl, hr, hpieces⟩ :=
    exists_parts_eq htemplate ha hb
  have hpart := wildcardPart_eq hparts hbefore hl hr
  refine ⟨before, l, r, after, wildcardPlace_eq hparts hbefore, hpart, fun i => ?_⟩
  have hi := digits_toDigits i
  rw [parse?_fill htemplate ha hb, parseChars?_append hi, hpieces _ (hi.notMem (by decide)), hpart]

end

/-! ### The number of the wildcard -/

theorem length_toString (n : Nat) : (toString n).length = (Nat.toDigits 10 n).length := by
  rw [← String.length_toList]
  simp

/-- A larger index makes a larger number, whichever digits stand in front. -/
theorem filled_lt (front : Nat) {i j : Nat} (h : i < j) :
    front * 10 ^ (toString i).length + i < front * 10 ^ (toString j).length + j := by
  simp only [length_toString]
  have hj : j < 10 ^ (Nat.toDigits 10 j).length :=
    (Nat.length_toDigits_le_iff (by omega) Nat.length_toDigits_pos).1 (Nat.le_refl _)
  have hlength : (Nat.toDigits 10 i).length ≤ (Nat.toDigits 10 j).length :=
    (Nat.length_toDigits_le_iff (by omega) Nat.length_toDigits_pos).2 (by omega)
  have hpow : 10 ^ (Nat.toDigits 10 i).length ≤ 10 ^ (Nat.toDigits 10 j).length :=
    Nat.pow_le_pow_right (by omega) hlength
  have hfront := Nat.mul_le_mul_left front hpow
  omega

theorem filled_injective (front back width : Nat) {i j : Nat}
    (h : (front * 10 ^ (toString i).length + i) * 10 ^ width + back =
      (front * 10 ^ (toString j).length + j) * 10 ^ width + back) : i = j := by
  have hcancel := Nat.eq_of_mul_eq_mul_right (Nat.pow_pos (by omega)) (Nat.add_right_cancel h)
  rcases Nat.lt_trichotomy i j with hlt | heq | hlt
  · have := filled_lt front hlt
    omega
  · exact heq
  · have := filled_lt front hlt
    omega

/-- In this part the digits of the index stand between digits that do not depend on it. -/
theorem wildcardNumber_eq {template : String} (h : template.toList.count '*' = 1) :
    ∃ front back width, ∀ i, wildcardNumber template i =
      (front * 10 ^ (toString i).length + i) * 10 ^ width + back := by
  obtain ⟨-, l, r, -, -, hpart, -⟩ := parse?_fill_eq_mapM h
  refine ⟨decimal (withoutSign l), decimal (splitMark r).1, (splitMark r).1.length, fun i => ?_⟩
  rw [wildcardNumber, hpart, decimal_digitsOf_append (digits_toDigits i), decimal_toDigits,
    length_toString]

/-- **Different indexes in a template make different paths.** -/
theorem parse?_fill_injective {template : String} (h : template.toList.count '*' = 1) {i j : Nat}
    {p : Path} (hi : Path.parse? (fill template (toString i)) = some p)
    (hj : Path.parse? (fill template (toString j)) = some p) : i = j := by
  obtain ⟨before, -, -, after, -, -, hparse⟩ := parse?_fill_eq_mapM h
  rw [hparse] at hi hj
  obtain ⟨ps, s, ps', hps, hs, -, rfl⟩ := mapM_append_cons_some hi
  obtain ⟨qs, t, qs', hqs, ht, -, heq⟩ := mapM_append_cons_some hj
  obtain rfl : ps = qs := Option.some.inj (hps.symm.trans hqs)
  obtain rfl : s = t := (List.cons.inj (List.append_cancel_left heq)).1
  have hnumber : wildcardNumber template i = wildcardNumber template j :=
    (Step.number_parse? hs).symm.trans (Step.number_parse? ht)
  obtain ⟨front, back, width, hformed⟩ := wildcardNumber_eq h
  rw [hformed, hformed] at hnumber
  exact filled_injective front back width hnumber

/-! ### The paths of a template -/

/-- An accepted template has one path for all indexes, but for the number of the step where its
wildcard stands. -/
theorem parse?_fill_eq {template : String} (h : checkTemplate template = .ok ()) :
    ∃ (before after : Path) (hardened : Bool), before.length = wildcardPlace template ∧
      ∀ i, Path.parse? (fill template (toString i)) =
        (Step.ofNumber? (wildcardNumber template i) hardened).map
          fun s => before ++ s :: after := by
  obtain ⟨hcount, hfirst⟩ := checkTemplate_eq_ok_iff.1 h
  obtain ⟨before, l, r, after, hplace, hpart, hparse⟩ := parse?_fill_eq_mapM hcount
  obtain ⟨first, hfirst⟩ := Option.isSome_iff_exists.1 hfirst
  have hzero := (hparse 0).symm.trans hfirst
  obtain ⟨steps, s, steps', hbefore, hs, hafter, -⟩ := mapM_append_cons_some hzero
  refine ⟨steps, steps', (splitMark r).2, ?_, fun i => ?_⟩
  · rw [hplace, length_of_mapM_some hbefore]
  · rw [hpart] at hs
    rw [hparse, mapM_append_cons_of_some hbefore hafter, wildcardNumber, hpart,
      Step.parse?_append (digits_toDigits i) (digits_toDigits 0) hs]

/-- Two paths that differ in the number of one step at most. -/
structure AgreeOff (place : Nat) (p q : Path) : Prop where
  length : p.length = q.length
  hardened : p.map (·.hardened) = q.map (·.hardened)
  number : ∀ k, k ≠ place → p[k]?.map (·.number) = q[k]?.map (·.number)

theorem agreeOff_append {before after : Path} {s t : Step} (h : s.hardened = t.hardened) :
    AgreeOff before.length (before ++ s :: after) (before ++ t :: after) where
  length := by simp
  hardened := by simp [h]
  number k hk := by
    rcases Nat.lt_or_gt_of_ne hk with hlt | hgt
    · rw [List.getElem?_append_left hlt, List.getElem?_append_left hlt]
    · obtain ⟨n, hn⟩ : ∃ n, k - before.length = n + 1 := ⟨k - before.length - 1, by omega⟩
      rw [List.getElem?_append_right (by omega), List.getElem?_append_right (by omega), hn,
        List.getElem?_cons_succ, List.getElem?_cons_succ]

/-- An index does not bring a wildcard with it. -/
theorem fill_ne_self {template : String} (h : '*' ∈ template.toList) (i : Nat) :
    fill template (toString i) ≠ template := by
  intro heq
  rw [← heq, fill, String.toList_ofList, fillChars, List.mem_flatMap] at h
  obtain ⟨c, -, hc⟩ := h
  split at hc
  · have hdigit : '*' ∈ Nat.toDigits 10 i := by simpa using hc
    exact (digits_toDigits i).notMem (by decide) hdigit
  · rename_i hstar
    exact hstar (List.mem_singleton.1 hc).symm

theorem parsePath_eq_ok_iff {text : String} {p : Path} :
    parsePath text = .ok p ↔ Path.parse? text = some p := by
  unfold parsePath
  split <;> simp [*]

/-- **A template that is a path for one index is one for all that are not too large.**  An accepted
template has one wildcard, and is a path with zero in its place.  In the part with the wildcard the
digits of an index stand between digits that are always the same.  It is a path just if the number
that they make together is below `2^31`.  The path has the steps of the one for zero then, but for
the number of the step where the wildcard stands, which is this number; and different indexes have
different paths.  A template that is not accepted is reported as it is, not with a number in it. -/
theorem checkTemplate_fills (template : String) :
    (∀ e, checkTemplate template = .error e → e = .invalidDerivationPath template ∧
      ('*' ∈ template.toList →
        ∀ i : Nat, e ≠ .invalidDerivationPath (fill template (toString i)))) ∧
    (checkTemplate template = .ok () → template.toList.count '*' = 1 ∧
      (∃ front back width, ∀ i, wildcardNumber template i =
        (front * 10 ^ (toString i).length + i) * 10 ^ width + back) ∧
      ∃ first, parsePath (fill template "0") = .ok first ∧
        (∀ i : Nat, (∃ p, parsePath (fill template (toString i)) = .ok p) ↔
          wildcardNumber template i < 2 ^ 31) ∧
        (∀ (i : Nat) p, parsePath (fill template (toString i)) = .ok p →
          AgreeOff (wildcardPlace template) first p ∧
            p[wildcardPlace template]?.map (·.number) = some (wildcardNumber template i)) ∧
        ∀ (i j : Nat) p q, i ≠ j → parsePath (fill template (toString i)) = .ok p →
          parsePath (fill template (toString j)) = .ok q → p ≠ q) := by
  refine ⟨fun e he => ?_, fun h => ?_⟩
  · obtain rfl := eq_of_checkTemplate_eq_error he
    refine ⟨rfl, fun hstar i heq => ?_⟩
    exact fill_ne_self hstar i (Error.invalidDerivationPath.inj heq).symm
  · obtain ⟨hcount, hzero⟩ := checkTemplate_eq_ok_iff.1 h
    obtain ⟨first, hfirst⟩ := Option.isSome_iff_exists.1 hzero
    obtain ⟨before, after, hardened, hplace, hparse⟩ := parse?_fill_eq h
    simp only [parsePath_eq_ok_iff]
    refine ⟨hcount, wildcardNumber_eq hcount, first, hfirst, fun i => ?_, fun i p hp => ?_,
      fun i j p q hne hp hq => ?_⟩
    · rw [← Step.exists_ofNumber?_iff hardened, ← Option.isSome_iff_exists, hparse,
        Option.isSome_map, Option.isSome_iff_exists]
    · rw [hparse] at hp
      obtain ⟨s, hs, rfl⟩ := Option.map_eq_some_iff.1 ((hparse 0).symm.trans hfirst)
      obtain ⟨t, ht, rfl⟩ := Option.map_eq_some_iff.1 hp
      have hs := Step.ofNumber?_eq_some_iff.1 hs
      have ht := Step.ofNumber?_eq_some_iff.1 ht
      rw [← hplace]
      refine ⟨agreeOff_append (hs.2.trans ht.2.symm), ?_⟩
      rw [List.getElem?_append_right (Nat.le_refl _), Nat.sub_self, List.getElem?_cons_zero,
        Option.map_some, ht.1]
    · rintro rfl
      exact hne (parse?_fill_injective hcount hp hq)

/-- A template whose wildcard stands behind a sign, between digits, and in front of a mark. -/
def gluedTemplate : String := "m/44'/+01*7h/3"

/-- The index 25 makes the step `1257'`, a large index makes no step, and a template with two
wildcards is reported with both of them. -/
theorem checkTemplate_fills_gluedTemplate :
    checkTemplate gluedTemplate = .ok () ∧
      (∃ first p, parsePath (fill gluedTemplate "0") = .ok first ∧
        parsePath (fill gluedTemplate (toString 25)) = .ok p ∧ AgreeOff 1 first p ∧
        p[1]?.map (·.number) = some 1257 ∧ first ≠ p) ∧
      (¬∃ p, parsePath (fill gluedTemplate (toString 999999999)) = .ok p) ∧
      ∃ e, checkTemplate "m/*/*" = .error e ∧ e = .invalidDerivationPath "m/*/*" ∧
        ∀ i : Nat, e ≠ .invalidDerivationPath (fill "m/*/*" (toString i)) := by
  have hok : checkTemplate gluedTemplate = .ok () := by decide
  have hplace : wildcardPlace gluedTemplate = 1 := by decide
  have hnumber : wildcardNumber gluedTemplate 25 = 1257 := by decide +kernel
  have hlarge : wildcardNumber gluedTemplate 999999999 = 19999999997 := by decide +kernel
  obtain ⟨-, -, first, hfirst, hiff, hagree, hne⟩ := (checkTemplate_fills gluedTemplate).2 hok
  obtain ⟨p, hp⟩ := (hiff 25).2 (by rw [hnumber]; decide)
  obtain ⟨hsame, hstep⟩ := hagree 25 p hp
  rw [hplace] at hsame hstep
  rw [hnumber] at hstep
  refine ⟨hok, ⟨first, p, hfirst, hp, hsame, hstep, hne 0 25 first p (by decide) hfirst hp⟩, ?_, ?_⟩
  · rw [hiff, hlarge]
    decide
  · have herror : checkTemplate "m/*/*" = .error (.invalidDerivationPath "m/*/*") := by decide
    obtain ⟨heq, hother⟩ := (checkTemplate_fills "m/*/*").1 _ herror
    exact ⟨_, herror, heq, hother (by decide)⟩

end CoinLedger.Key
