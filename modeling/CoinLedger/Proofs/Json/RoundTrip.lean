import Mathlib.Data.List.Basic
import CoinLedger.Json.Reader

/-! # Reading back what was written

`Plain` describes the documents that records are written as: their numbers are natural numbers and
their strings are escaped texts.  `parse?_render` says that a plain document is read back from its
text.

The readers of parts are treated one by one: `readBody_escape` for strings, `readNumeral_digits` for
numbers and `readValue_render` for values, each with any text behind the part.  What stands behind a
number must end it, which is what `Ends` says. -/

namespace CoinLedger.Json

/-! ### Strings -/

theorem readBody_short {e b : UInt8} (h : shortLetter? b = some e) (rest : Bytes) :
    readBody (0x5c :: e :: rest) = (readBody rest).map fun p => (0x5c :: e :: p.1, p.2) := by
  have hshort := (shortEscape?_of_shortLetter? h).1
  rw [readBody.eq_def]
  simp [hshort]

theorem readBody_plain {b : UInt8} (hquote : b ≠ 0x22) (hslash : b ≠ 0x5c) (hcontrol : ¬b < 0x20)
    (rest : Bytes) : readBody (b :: rest) = (readBody rest).map fun p => (b :: p.1, p.2) := by
  rw [readBody.eq_def]
  simp only [hquote, hslash, hcontrol, if_false]

theorem hexDigitByte_plain :
    ∀ n < 16, hexDigitByte n ≠ 0x22 ∧ hexDigitByte n ≠ 0x5c ∧ ¬hexDigitByte n < 0x20 := by
  decide

theorem readBody_hexDigitByte {n : Nat} (h : n < 16) (rest : Bytes) :
    readBody (hexDigitByte n :: rest) =
      (readBody rest).map fun p => (hexDigitByte n :: p.1, p.2) := by
  obtain ⟨hquote, hslash, hcontrol⟩ := hexDigitByte_plain n h
  exact readBody_plain hquote hslash hcontrol rest

theorem readBody_control {n : Nat} (h : n < 32) (rest : Bytes) :
    readBody (0x5c :: 0x75 :: 0x30 :: 0x30 :: hexDigitByte (n / 16) :: hexDigitByte (n % 16) ::
        rest) =
      (readBody rest).map fun p => (0x5c :: 0x75 :: 0x30 :: 0x30 :: hexDigitByte (n / 16) ::
        hexDigitByte (n % 16) :: p.1, p.2) := by
  have hfour : startsWithHexFour
      (0x30 :: 0x30 :: hexDigitByte (n / 16) :: hexDigitByte (n % 16) :: rest) = true := by
    rw [startsWithHexFour, hexFour?_hexDigitByte n h]
    rfl
  have hescape : readBody (0x5c :: 0x75 :: 0x30 :: 0x30 :: hexDigitByte (n / 16) ::
      hexDigitByte (n % 16) :: rest) =
      (readBody (0x30 :: 0x30 :: hexDigitByte (n / 16) :: hexDigitByte (n % 16) :: rest)).map
        fun p => (0x5c :: 0x75 :: p.1, p.2) := by
    rw [readBody.eq_def]
    simp [hfour]
  rw [hescape, readBody_plain (by decide) (by decide) (by decide),
    readBody_plain (by decide) (by decide) (by decide), readBody_hexDigitByte (by omega),
    readBody_hexDigitByte (by omega)]
  cases readBody rest <;> rfl

theorem readBody_escapeByte (b : UInt8) (rest : Bytes) :
    readBody (escapeByte b ++ rest) =
      (readBody rest).map fun p => (escapeByte b ++ p.1, p.2) := by
  unfold escapeByte
  split
  · rename_i e he
    exact readBody_short he rest
  · rename_i hnone
    split
    · rename_i hlt
      exact readBody_control (UInt8.lt_iff_toNat_lt.1 hlt) rest
    · rename_i hcontrol
      have hquote : b ≠ 0x22 := by grind [shortLetter?]
      have hslash : b ≠ 0x5c := by grind [shortLetter?]
      exact readBody_plain hquote hslash hcontrol rest

theorem readBody_escape : ∀ (bs rest : Bytes),
    readBody (escape bs ++ 0x22 :: rest) = some (escape bs, rest)
  | [], rest => by
      rw [readBody.eq_def]
      rfl
  | b :: bs, rest => by
      have hcons : escape (b :: bs) = escapeByte b ++ escape bs := rfl
      rw [hcons, List.append_assoc, readBody_escapeByte, readBody_escape bs rest, Option.map_some]

/-! ### Numbers -/

/-- Whether a text cannot go on with a number that stands in front of it. -/
def Ends (rest : Bytes) : Prop :=
  ∀ b bs, rest = b :: bs → isDigit b = false ∧ b ≠ 0x2e ∧ b ≠ 0x65 ∧ b ≠ 0x45

theorem ends_nil : Ends [] := fun _ _ h => by simp at h

theorem ends_cons {b : UInt8} (h : isDigit b = false ∧ b ≠ 0x2e ∧ b ≠ 0x65 ∧ b ≠ 0x45)
    (bs : Bytes) : Ends (b :: bs) := by
  intro b' bs' heq
  obtain ⟨rfl, -⟩ := List.cons.inj heq
  exact h

theorem ascii_digitChar :
    ∀ n < 10, isDigit (UInt8.ofNat n.digitChar.toNat) = true ∧
      Char.ofNat (UInt8.ofNat n.digitChar.toNat).toNat = n.digitChar ∧
      (n ≠ 0 → UInt8.ofNat n.digitChar.toNat ≠ 0x30) := by
  decide

theorem toDigits_forall {P : Char → Prop} (h : ∀ n < 10, P n.digitChar) (n : Nat) :
    ∀ c ∈ Nat.toDigits 10 n, P c := by
  induction n using Nat.strongRecOn with
  | ind n ih =>
      intro c hc
      rw [Nat.toDigits_eq_if (by omega)] at hc
      split at hc
      · rename_i hlt
        obtain rfl := List.mem_singleton.1 hc
        exact h n hlt
      · rcases List.mem_append.1 hc with hc | hc
        · exact ih (n / 10) (by omega) c hc
        · obtain rfl := List.mem_singleton.1 hc
          exact h (n % 10) (by omega)

/-- The first digit of a number is no zero, unless the number is zero. -/
theorem head_toDigits {n : Nat} (h : n ≠ 0) :
    ∃ d cs, Nat.toDigits 10 n = Nat.digitChar d :: cs ∧ d < 10 ∧ d ≠ 0 := by
  induction n using Nat.strongRecOn with
  | ind n ih =>
      rw [Nat.toDigits_eq_if (by omega)]
      split
      · rename_i hlt
        exact ⟨n, [], rfl, hlt, h⟩
      · obtain ⟨d, cs, heq, hd⟩ := ih (n / 10) (by omega) (by omega)
        exact ⟨d, cs ++ [Nat.digitChar (n % 10)], by rw [heq]; rfl, hd⟩

theorem readDigits_ascii {cs : List Char} {rest : Bytes}
    (hdigits : ∀ c ∈ cs, isDigit (UInt8.ofNat c.toNat) = true ∧
      Char.ofNat (UInt8.ofNat c.toNat).toNat = c) (hrest : Ends rest) :
    readDigits (ascii cs ++ rest) = (cs, rest) := by
  have hall : ∀ b ∈ ascii cs, isDigit b = true := by
    intro b hb
    obtain ⟨c, hc, rfl⟩ := List.mem_map.1 hb
    exact (hdigits c hc).1
  have hstop : rest.takeWhile isDigit = [] ∧ rest.dropWhile isDigit = rest := by
    cases rest with
    | nil => exact ⟨rfl, rfl⟩
    | cons b bs => simp [(hrest b bs rfl).1]
  have hchars : (ascii cs).map (fun b => Char.ofNat b.toNat) = cs := by
    rw [ascii, List.map_map]
    exact (List.map_congr_left fun c hc => (hdigits c hc).2).trans (List.map_id cs)
  rw [readDigits, List.takeWhile_append_of_pos hall, List.dropWhile_append_of_pos hall, hstop.1,
    hstop.2, List.append_nil, hchars]

theorem readWhole_digits (n : Nat) {rest : Bytes} (hrest : Ends rest) :
    readWhole (ascii (Nat.toDigits 10 n) ++ rest) = some (Nat.toDigits 10 n, rest) := by
  by_cases hzero : n = 0
  · subst hzero
    simp [ascii, readWhole]
  · obtain ⟨d, cs, heq, hlt, hd⟩ := head_toDigits hzero
    have hread : readDigits (ascii (Nat.toDigits 10 n) ++ rest) = (Nat.toDigits 10 n, rest) :=
      readDigits_ascii
        (toDigits_forall (fun n hn => ⟨(ascii_digitChar n hn).1, (ascii_digitChar n hn).2.1⟩) n) hrest
    have hcons : ascii (Nat.toDigits 10 n) ++ rest =
        UInt8.ofNat d.digitChar.toNat :: (ascii cs ++ rest) := by
      rw [heq]; rfl
    rw [hcons] at hread ⊢
    rw [readWhole, if_neg ((ascii_digitChar d hlt).2.2 hd), if_pos (ascii_digitChar d hlt).1, hread]

theorem readFraction_of_ends {rest : Bytes} (hrest : Ends rest) :
    readFraction rest = some ([], rest) := by
  cases rest with
  | nil => rfl
  | cons b bs => rw [readFraction, if_neg (hrest b bs rfl).2.1]

theorem readExponent_of_ends {rest : Bytes} (hrest : Ends rest) :
    readExponent rest = some (none, rest) := by
  cases rest with
  | nil => rfl
  | cons b bs =>
      obtain ⟨-, -, hlower, hupper⟩ := hrest b bs rfl
      rw [readExponent, if_neg (by simp [hlower, hupper])]

theorem head_ascii_toDigits (n : Nat) :
    ∃ d bs, ascii (Nat.toDigits 10 n) = UInt8.ofNat (Nat.digitChar d).toNat :: bs ∧ d < 10 := by
  by_cases hzero : n = 0
  · subst hzero
    exact ⟨0, [], by rw [Nat.toDigits_zero]; rfl, by omega⟩
  · obtain ⟨d, cs, heq, hlt, -⟩ := head_toDigits hzero
    exact ⟨d, ascii cs, by rw [heq]; rfl, hlt⟩

theorem digitByte_ne_minus : ∀ d < 10, UInt8.ofNat (Nat.digitChar d).toNat ≠ 0x2d := by decide

theorem readNumeral_digits (n : Nat) {rest : Bytes} (hrest : Ends rest) :
    readNumeral (ascii (Nat.toDigits 10 n) ++ rest) =
      some (⟨false, Nat.toDigits 10 n, [], none⟩, rest) := by
  obtain ⟨d, bs, heq, hlt⟩ := head_ascii_toDigits n
  have hwhole := readWhole_digits n hrest
  rw [heq, List.cons_append] at hwhole ⊢
  rw [readNumeral]
  simp [digitByte_ne_minus d hlt, hwhole, readFraction_of_ends hrest, readExponent_of_ends hrest]

/-! ### Values -/

/-- A document whose numbers are natural numbers and whose strings are escaped bytes. -/
inductive Plain : Json → Prop
  | null : Plain null
  | bool (b : Bool) : Plain (bool b)
  | nat (n : Nat) : Plain (ofNat n)
  | string (bs : Bytes) : Plain (string (escape bs))
  | array {vs : List Json} (items : ∀ v ∈ vs, Plain v) : Plain (array vs)
  | object {ms : List (Bytes × Json)} (names : ∀ m ∈ ms, ∃ bs, m.1 = escape bs)
      (values : ∀ m ∈ ms, Plain m.2) : Plain (object ms)

theorem skipBlank_cons {b : UInt8} (h : isBlank b = false) (bs : Bytes) :
    skipBlank (b :: bs) = b :: bs := by
  simp [skipBlank, h]

theorem digitByte_opens : ∀ d < 10, isBlank (UInt8.ofNat (Nat.digitChar d).toNat) = false ∧
    UInt8.ofNat (Nat.digitChar d).toNat ≠ 0x5d ∧ UInt8.ofNat (Nat.digitChar d).toNat ≠ 0x22 ∧
    UInt8.ofNat (Nat.digitChar d).toNat ≠ 0x5b ∧ UInt8.ofNat (Nat.digitChar d).toNat ≠ 0x7b ∧
    UInt8.ofNat (Nat.digitChar d).toNat ≠ 0x6e ∧ UInt8.ofNat (Nat.digitChar d).toNat ≠ 0x74 ∧
    UInt8.ofNat (Nat.digitChar d).toNat ≠ 0x66 := by
  decide

theorem render_ofNat (n : Nat) : render (ofNat n) = ascii (Nat.toDigits 10 n) := by
  simp [ofNat, render, Numeral.render]

/-- The text of a value starts with a byte that is no white space and closes no array. -/
theorem Plain.render_head {j : Json} (h : Plain j) :
    ∃ b bs, render j = b :: bs ∧ isBlank b = false ∧ b ≠ 0x5d := by
  cases h with
  | null => exact ⟨_, _, rfl, by decide, by decide⟩
  | bool b => cases b <;> exact ⟨_, _, rfl, by decide, by decide⟩
  | nat n =>
      obtain ⟨d, bs, heq, hlt⟩ := head_ascii_toDigits n
      obtain ⟨hblank, hclose, -⟩ := digitByte_opens d hlt
      exact ⟨_, bs, by rw [render_ofNat, heq], hblank, hclose⟩
  | string bs => exact ⟨0x22, _, rfl, by decide, by decide⟩
  | @array vs items => cases vs <;> exact ⟨0x5b, _, rfl, by decide, by decide⟩
  | @object ms names values =>
      rcases ms with _ | ⟨⟨name, v⟩, ms⟩ <;> exact ⟨0x7b, _, rfl, by decide, by decide⟩

theorem ends_renderItems (vs : List Json) (rest : Bytes) : Ends (renderItems vs ++ rest) := by
  cases vs <;> exact ends_cons (by decide) _

theorem ends_renderMembers (ms : List (Bytes × Json)) (rest : Bytes) :
    Ends (renderMembers ms ++ rest) := by
  rcases ms with _ | ⟨⟨name, v⟩, ms⟩ <;> exact ends_cons (by decide) _

/-- Whether a value is read back from its text, whatever stands behind it. -/
def ReadsBack (j : Json) : Prop :=
  ∀ depth rest, 2 * (render j).length ≤ depth → Ends rest →
    readValue depth (render j ++ rest) = some (j, rest)

theorem readItems_render : ∀ (v : Json) (vs : List Json), (∀ w ∈ v :: vs, Plain w) →
    (∀ w ∈ v :: vs, ReadsBack w) → ∀ (depth : Nat) (rest : Bytes),
      2 * ((render v).length + (renderItems vs).length) ≤ depth →
      readItems depth (render v ++ (renderItems vs ++ rest)) = some (v :: vs, rest)
  | v, vs, hplain, hread, 0, rest, hdepth => by
      obtain ⟨b, bs, heq, -⟩ := (hplain v List.mem_cons_self).render_head
      rw [heq, List.length_cons] at hdepth
      omega
  | v, [], hplain, hread, depth + 1, rest, hdepth => by
      have hv := hread v List.mem_cons_self depth (renderItems [] ++ rest)
        (by simp [renderItems] at hdepth; omega) (ends_renderItems [] rest)
      rw [readItems, hv]
      rfl
  | v, w :: ws, hplain, hread, depth + 1, rest, hdepth => by
      have hlength : (renderItems (w :: ws)).length =
          1 + (render w).length + (renderItems ws).length := by
        simp [renderItems]; omega
      have hv := hread v List.mem_cons_self depth (renderItems (w :: ws) ++ rest)
        (by omega) (ends_renderItems (w :: ws) rest)
      have hws := readItems_render w ws (fun x hx => hplain x (List.mem_cons_of_mem _ hx))
        (fun x hx => hread x (List.mem_cons_of_mem _ hx)) depth rest (by omega)
      have hcons : renderItems (w :: ws) ++ rest = 0x2c :: (render w ++ (renderItems ws ++ rest)) := by
        simp [renderItems]
      rw [readItems, hv]
      simp only [hcons, skipBlank_cons (b := 0x2c) (by decide), if_true, hws]
      rfl

theorem readMembers_render : ∀ (name : Bytes) (v : Json) (ms : List (Bytes × Json)),
    (∀ m ∈ (name, v) :: ms, ∃ bs, m.1 = escape bs) → (∀ m ∈ (name, v) :: ms, ReadsBack m.2) →
      ∀ (depth : Nat) (rest : Bytes),
        2 * ((render v).length + (renderMembers ms).length + 2) ≤ depth →
        readMembers depth (0x22 :: (name ++ 0x22 :: 0x3a :: (render v ++
          (renderMembers ms ++ rest)))) = some ((name, v) :: ms, rest)
  | _, _, _, _, _, 0, _, hdepth => by omega
  | name, v, ms, hnames, hread, depth + 1, rest, hdepth => by
      obtain ⟨bs, rfl⟩ : ∃ bs, name = escape bs := hnames (name, v) List.mem_cons_self
      have hv := hread (escape bs, v) List.mem_cons_self depth (renderMembers ms ++ rest)
        (by simp only; omega) (ends_renderMembers ms rest)
      rw [readMembers]
      simp only [skipBlank_cons (b := 0x22) (by decide), skipBlank_cons (b := 0x3a) (by decide),
        readBody_escape, hv, ne_eq, not_true_eq_false, if_false]
      rcases ms with _ | ⟨⟨next, w⟩, ms⟩
      · rfl
      · have hlength : (renderMembers ((next, w) :: ms)).length =
            4 + next.length + (render w).length + (renderMembers ms).length := by
          simp [renderMembers]; omega
        have hms := readMembers_render next w ms
          (fun m hm => hnames m (List.mem_cons_of_mem _ hm))
          (fun m hm => hread m (List.mem_cons_of_mem _ hm)) depth rest (by omega)
        have hcons : renderMembers ((next, w) :: ms) ++ rest = 0x2c :: (0x22 :: (next ++
            0x22 :: 0x3a :: (render w ++ (renderMembers ms ++ rest)))) := by
          simp [renderMembers]
        simp only [hcons, skipBlank_cons (b := 0x2c) (by decide), if_true, hms]
        rfl

/-- No text of a plain value is empty, so a depth that suffices for it is not zero. -/
theorem Plain.readsBack {j : Json} (h : Plain j)
    (hread : ∀ depth rest, 2 * (render j).length ≤ depth + 1 → Ends rest →
      readValue (depth + 1) (render j ++ rest) = some (j, rest)) : ReadsBack j := by
  intro depth rest hdepth hrest
  cases depth with
  | zero =>
      obtain ⟨b, bs, heq, -⟩ := h.render_head
      rw [heq, List.length_cons] at hdepth
      omega
  | succ depth => exact hread depth rest hdepth hrest

theorem readsBack_ofNat (n : Nat) : ReadsBack (ofNat n) := by
  apply (Plain.nat n).readsBack
  intro depth rest hdepth hrest
  obtain ⟨d, bs, heq, hlt⟩ := head_ascii_toDigits n
  obtain ⟨hblank, -, h1, h2, h3, h4, h5, h6⟩ := digitByte_opens d hlt
  have hnumber := readNumeral_digits n hrest
  rw [render_ofNat]
  rw [heq, List.cons_append] at hnumber ⊢
  rw [readValue]
  simp only [skipBlank_cons hblank, h1, h2, h3, h4, h5, h6, if_false, hnumber]
  rfl

theorem readsBack_string (bs : Bytes) : ReadsBack (string (escape bs)) := by
  apply (Plain.string bs).readsBack
  intro depth rest hdepth _
  have hcons : render (string (escape bs)) ++ rest = 0x22 :: (escape bs ++ 0x22 :: rest) := by
    simp [render]
  rw [hcons, readValue]
  simp only [skipBlank_cons (b := 0x22) (by decide), if_true, readBody_escape]
  rfl

theorem readsBack_array {vs : List Json} (items : ∀ v ∈ vs, Plain v)
    (hread : ∀ v ∈ vs, ReadsBack v) : ReadsBack (array vs) := by
  apply (Plain.array items).readsBack
  intro depth rest hdepth _
  cases vs with
  | nil => rfl
  | cons v vs =>
      obtain ⟨b, bs, heq, hblank, hclose⟩ := (items v List.mem_cons_self).render_head
      have hitems := readItems_render v vs items hread depth rest
        (by simp [render] at hdepth; omega)
      have hcons : render (array (v :: vs)) ++ rest =
          0x5b :: (render v ++ (renderItems vs ++ rest)) := by
        simp [render]
      rw [hcons, readValue]
      rw [heq, List.cons_append] at hitems ⊢
      simp only [skipBlank_cons (b := 0x5b) (by decide), skipBlank_cons hblank, hclose, if_false,
        if_true, hitems]
      rfl

theorem readsBack_object {ms : List (Bytes × Json)} (names : ∀ m ∈ ms, ∃ bs, m.1 = escape bs)
    (values : ∀ m ∈ ms, Plain m.2) (hread : ∀ m ∈ ms, ReadsBack m.2) : ReadsBack (object ms) := by
  apply (Plain.object names values).readsBack
  intro depth rest hdepth _
  rcases ms with _ | ⟨⟨name, v⟩, ms⟩
  · rfl
  · have hmembers := readMembers_render name v ms names hread depth rest
      (by simp [render] at hdepth; omega)
    have hcons : render (object ((name, v) :: ms)) ++ rest =
        0x7b :: (0x22 :: (name ++ 0x22 :: 0x3a :: (render v ++ (renderMembers ms ++ rest)))) := by
      simp [render]
    rw [hcons, readValue]
    simp only [skipBlank_cons (b := 0x7b) (by decide), skipBlank_cons (b := 0x22) (by decide),
      if_true, hmembers]
    rfl

/-- A plain value is read back from its text. -/
theorem readValue_render {j : Json} (h : Plain j) : ReadsBack j := by
  induction h with
  | null => exact Plain.null.readsBack fun depth rest _ _ => rfl
  | bool b =>
      apply (Plain.bool b).readsBack
      intro depth rest _ _
      cases b <;> rfl
  | nat n => exact readsBack_ofNat n
  | string bs => exact readsBack_string bs
  | array items ih => exact readsBack_array items ih
  | object names values ih => exact readsBack_object names values ih

/-- A plain document is read back from its text. -/
theorem parse?_render {j : Json} (h : Plain j) : parse? (render j) = some j := by
  have hread := readValue_render h (2 * (render j).length + 2) [] (by omega) ends_nil
  rw [List.append_nil] at hread
  rw [parse?, hread]
  rfl

end CoinLedger.Json
