import InvertedFile.Proofs.Json.Words

/-!
# The strings of JSON text are read

A character is read from its UTF-8 bytes, and what is read as a character are
the bytes of one: the reader refuses what is too long for its code, half of a
pair and what is past the last code. From there a string is read piece by
piece. It ends at its quote, which no piece can start with, so that both
readers of strings give exactly what the grammar says.

## Main results

* `character?_eq_some_iff` — a character is read from its bytes.
* `skipString?_eq_some_iff` — a string whose text does not matter.
* `text?_eq_some_iff` — a string whose text matters.
-/

namespace InvertedFile.Json

/-! ## Characters -/

theorem toNat_ofNat_of_valid {n : Nat} (h : n.isValidChar) : (Char.ofNat n).toNat = n := by
  rw [Char.ofNat, dif_pos h]
  rfl

theorem toNat_lt (c : Char) : c.toNat < 0x110000 := by
  have hvalid := c.valid
  show c.val.toNat < 0x110000
  omega

/-- No character is a surrogate. -/
theorem toNat_not_surrogate (c : Char) : c.toNat < 0xD800 ∨ 0xE000 ≤ c.toNat := by
  have hvalid := c.valid
  show c.val.toNat < 0xD800 ∨ 0xE000 ≤ c.val.toNat
  omega

theorem continuation?_eq_some_iff {b : UInt8} {n : Nat} :
    continuation? b = some n ↔ n < 64 ∧ b = UInt8.ofNat (n + 0x80) := by
  have hb := b.toNat_lt
  simp only [continuation?, UInt8.le_iff_toNat_le, UInt8.reduceToNat, ← UInt8.toNat_inj,
    UInt8.toNat_ofNat']
  split
  · simp only [Option.some.injEq]
    omega
  · simp only [reduceCtorEq, false_iff]
    omega

section Utf8

variable {c : Char}

theorem utf8_one (h : c.toNat < 0x80) : String.utf8EncodeChar c = [UInt8.ofNat c.toNat] :=
  if_pos (show c.toNat ≤ 127 by omega)

theorem utf8_two (hlow : 0x80 ≤ c.toNat) (hhigh : c.toNat < 0x800) :
    String.utf8EncodeChar c =
      [UInt8.ofNat (c.toNat / 64 + 0xC0), UInt8.ofNat (c.toNat % 64 + 0x80)] := by
  have hlead : c.toNat / 64 % 32 = c.toNat / 64 := Nat.mod_eq_of_lt (by omega)
  rw [← hlead]
  exact (if_neg (show ¬ c.toNat ≤ 127 by omega)).trans (if_pos (show c.toNat ≤ 2047 by omega))

theorem utf8_three (hlow : 0x800 ≤ c.toNat) (hhigh : c.toNat < 0x10000) :
    String.utf8EncodeChar c =
      [UInt8.ofNat (c.toNat / 4096 + 0xE0), UInt8.ofNat (c.toNat / 64 % 64 + 0x80),
        UInt8.ofNat (c.toNat % 64 + 0x80)] := by
  have hlead : c.toNat / 4096 % 16 = c.toNat / 4096 := Nat.mod_eq_of_lt (by omega)
  rw [← hlead]
  exact (if_neg (show ¬ c.toNat ≤ 127 by omega)).trans <|
    (if_neg (show ¬ c.toNat ≤ 2047 by omega)).trans (if_pos (show c.toNat ≤ 65535 by omega))

theorem utf8_four (hlow : 0x10000 ≤ c.toNat) :
    String.utf8EncodeChar c =
      [UInt8.ofNat (c.toNat / 262144 + 0xF0), UInt8.ofNat (c.toNat / 4096 % 64 + 0x80),
        UInt8.ofNat (c.toNat / 64 % 64 + 0x80), UInt8.ofNat (c.toNat % 64 + 0x80)] := by
  have hlimit := toNat_lt c
  have hlead : c.toNat / 262144 % 8 = c.toNat / 262144 := Nat.mod_eq_of_lt (by omega)
  rw [← hlead]
  exact (if_neg (show ¬ c.toNat ≤ 127 by omega)).trans <|
    (if_neg (show ¬ c.toNat ≤ 2047 by omega)).trans (if_neg (show ¬ c.toNat ≤ 65535 by omega))

/-- A byte that goes on with a character is read as the bits it carries. -/
theorem continuation?_ofNat (n : Nat) :
    continuation? (UInt8.ofNat (n % 64 + 0x80)) = some (n % 64) :=
  continuation?_eq_some_iff.mpr ⟨Nat.mod_lt n (by decide), rfl⟩

/-! ### A character is read from its bytes

The length of the encoding decides the branch that the reader takes. -/

theorem character?_one (h : c.toNat < 0x80) (rest : Bytes) :
    character? (String.utf8EncodeChar c ++ rest) = some (c, rest) := by
  have hbyte : (UInt8.ofNat c.toNat).toNat = c.toNat :=
    UInt8.toNat_ofNat_of_lt' (show _ < 256 by omega)
  rw [utf8_one h]
  simp only [List.cons_append, List.nil_append, character?, UInt8.lt_iff_toNat_lt,
    UInt8.reduceToNat, hbyte]
  rw [if_pos h, Char.ofNat_toNat]

theorem character?_two (hlow : 0x80 ≤ c.toNat) (hhigh : c.toNat < 0x800) (rest : Bytes) :
    character? (String.utf8EncodeChar c ++ rest) = some (c, rest) := by
  have hbyte : (UInt8.ofNat (c.toNat / 64 + 0xC0)).toNat = c.toNat / 64 + 0xC0 :=
    UInt8.toNat_ofNat_of_lt' (show _ < 256 by omega)
  have hcode : (c.toNat / 64 + 0xC0 - 0xC0) * 64 + c.toNat % 64 = c.toNat := by omega
  rw [utf8_two hlow hhigh]
  simp only [List.cons_append, List.nil_append, character?, UInt8.lt_iff_toNat_lt,
    UInt8.reduceToNat, hbyte, Option.bind_eq_bind]
  rw [if_neg (by omega), if_neg (by omega), if_pos (by omega), Option.bind_eq_some_iff]
  refine ⟨_, continuation?_ofNat _, ?_⟩
  rw [hcode, Option.pure_def, Char.ofNat_toNat]

theorem character?_three (hlow : 0x800 ≤ c.toNat) (hhigh : c.toNat < 0x10000) (rest : Bytes) :
    character? (String.utf8EncodeChar c ++ rest) = some (c, rest) := by
  have hhole := toNat_not_surrogate c
  have hbyte : (UInt8.ofNat (c.toNat / 4096 + 0xE0)).toNat = c.toNat / 4096 + 0xE0 :=
    UInt8.toNat_ofNat_of_lt' (show _ < 256 by omega)
  have hcode : (c.toNat / 4096 + 0xE0 - 0xE0) * 4096 + c.toNat / 64 % 64 * 64 +
      c.toNat % 64 = c.toNat := by omega
  rw [utf8_three hlow hhigh]
  simp only [List.cons_append, List.nil_append, character?, UInt8.lt_iff_toNat_lt,
    UInt8.reduceToNat, hbyte, Option.bind_eq_bind]
  rw [if_neg (by omega), if_neg (by omega), if_neg (by omega), if_pos (by omega)]
  simp only [Option.bind_eq_some_iff]
  refine ⟨_, continuation?_ofNat _, _, continuation?_ofNat _, ?_⟩
  rw [hcode, if_neg (by omega), Option.pure_def, Char.ofNat_toNat]

theorem character?_four (hlow : 0x10000 ≤ c.toNat) (rest : Bytes) :
    character? (String.utf8EncodeChar c ++ rest) = some (c, rest) := by
  have hlimit := toNat_lt c
  have hbyte : (UInt8.ofNat (c.toNat / 262144 + 0xF0)).toNat = c.toNat / 262144 + 0xF0 :=
    UInt8.toNat_ofNat_of_lt' (show _ < 256 by omega)
  have hcode : (c.toNat / 262144 + 0xF0 - 0xF0) * 262144 + c.toNat / 4096 % 64 * 4096 +
      c.toNat / 64 % 64 * 64 + c.toNat % 64 = c.toNat := by omega
  rw [utf8_four hlow]
  simp only [List.cons_append, List.nil_append, character?, UInt8.lt_iff_toNat_lt,
    UInt8.reduceToNat, hbyte, Option.bind_eq_bind]
  rw [if_neg (by omega), if_neg (by omega), if_neg (by omega), if_neg (by omega),
    if_pos (by omega)]
  simp only [Option.bind_eq_some_iff]
  refine ⟨_, continuation?_ofNat _, _, continuation?_ofNat _, _, continuation?_ofNat _, ?_⟩
  rw [hcode, if_neg (by omega), Option.pure_def, Char.ofNat_toNat]

theorem character?_utf8 (c : Char) (rest : Bytes) :
    character? (String.utf8EncodeChar c ++ rest) = some (c, rest) := by
  by_cases hone : c.toNat < 0x80
  · exact character?_one hone rest
  by_cases htwo : c.toNat < 0x800
  · exact character?_two (Nat.not_lt.mp hone) htwo rest
  by_cases hthree : c.toNat < 0x10000
  · exact character?_three (Nat.not_lt.mp htwo) hthree rest
  · exact character?_four (Nat.not_lt.mp hthree) rest

/-! ### What is read as a character are the bytes of one -/

theorem utf8_of_two {a : UInt8} {j : Nat} (hlow : 0xC2 ≤ a.toNat) (hhigh : a.toNat < 0xE0)
    (hj : j < 64) :
    String.utf8EncodeChar (Char.ofNat ((a.toNat - 0xC0) * 64 + j)) =
      [a, UInt8.ofNat (j + 0x80)] := by
  have hcode : (Char.ofNat ((a.toNat - 0xC0) * 64 + j)).toNat = (a.toNat - 0xC0) * 64 + j :=
    toNat_ofNat_of_valid (by omega)
  have hlead : ((a.toNat - 0xC0) * 64 + j) / 64 + 0xC0 = a.toNat := by omega
  have hlast : ((a.toNat - 0xC0) * 64 + j) % 64 = j := by omega
  rw [utf8_two (by rw [hcode]; omega) (by rw [hcode]; omega), hcode, hlead, hlast,
    UInt8.ofNat_toNat]

theorem utf8_of_three {a : UInt8} {j k : Nat} (hlow : 0xE0 ≤ a.toNat) (hhigh : a.toNat < 0xF0)
    (hj : j < 64) (hk : k < 64)
    (hvalid : ¬ ((a.toNat - 0xE0) * 4096 + j * 64 + k < 0x800 ∨
      (0xD800 ≤ (a.toNat - 0xE0) * 4096 + j * 64 + k ∧
        (a.toNat - 0xE0) * 4096 + j * 64 + k < 0xE000))) :
    String.utf8EncodeChar (Char.ofNat ((a.toNat - 0xE0) * 4096 + j * 64 + k)) =
      [a, UInt8.ofNat (j + 0x80), UInt8.ofNat (k + 0x80)] := by
  obtain ⟨n, hn⟩ : ∃ n, n = (a.toNat - 0xE0) * 4096 + j * 64 + k := ⟨_, rfl⟩
  rw [← hn] at hvalid ⊢
  have hcode : (Char.ofNat n).toNat = n := toNat_ofNat_of_valid (by omega)
  have hlead : n / 4096 + 0xE0 = a.toNat := by omega
  have hsecond : n / 64 % 64 = j := by omega
  have hlast : n % 64 = k := by omega
  rw [utf8_three (by rw [hcode]; omega) (by rw [hcode]; omega), hcode, hlead, hsecond, hlast,
    UInt8.ofNat_toNat]

theorem utf8_of_four {a : UInt8} {j k l : Nat} (hlow : 0xF0 ≤ a.toNat) (hhigh : a.toNat < 0xF5)
    (hj : j < 64) (hk : k < 64) (hl : l < 64)
    (hvalid : ¬ ((a.toNat - 0xF0) * 262144 + j * 4096 + k * 64 + l < 0x10000 ∨
      0x110000 ≤ (a.toNat - 0xF0) * 262144 + j * 4096 + k * 64 + l)) :
    String.utf8EncodeChar (Char.ofNat ((a.toNat - 0xF0) * 262144 + j * 4096 + k * 64 + l)) =
      [a, UInt8.ofNat (j + 0x80), UInt8.ofNat (k + 0x80), UInt8.ofNat (l + 0x80)] := by
  obtain ⟨n, hn⟩ : ∃ n, n = (a.toNat - 0xF0) * 262144 + j * 4096 + k * 64 + l := ⟨_, rfl⟩
  rw [← hn] at hvalid ⊢
  have hcode : (Char.ofNat n).toNat = n := toNat_ofNat_of_valid (by omega)
  have hlead : n / 262144 + 0xF0 = a.toNat := by omega
  have hsecond : n / 4096 % 64 = j := by omega
  have hthird : n / 64 % 64 = k := by omega
  have hlast : n % 64 = l := by omega
  rw [utf8_four (by rw [hcode]; omega), hcode, hlead, hsecond, hthird, hlast, UInt8.ofNat_toNat]

theorem utf8_of_character? {s rest : Bytes} (h : character? s = some (c, rest)) :
    s = String.utf8EncodeChar c ++ rest := by
  cases s with
  | nil => cases h
  | cons a tail =>
      simp only [character?, UInt8.lt_iff_toNat_lt, UInt8.reduceToNat] at h
      split at h
      · next hone =>
          cases h
          have hcode : (Char.ofNat a.toNat).toNat = a.toNat := toNat_ofNat_of_valid (by omega)
          rw [utf8_one (by rw [hcode]; exact hone), hcode, UInt8.ofNat_toNat]
          rfl
      split at h
      · cases h
      next hnone =>
      split at h
      · next htwo =>
          split at h
          · simp only [Option.bind_eq_bind, Option.bind_eq_some_iff, continuation?_eq_some_iff,
              Option.pure_def, Option.some.injEq, Prod.mk.injEq] at h
            obtain ⟨j, ⟨hj, rfl⟩, rfl, rfl⟩ := h
            rw [utf8_of_two (Nat.not_lt.mp hnone) htwo hj]
            rfl
          · cases h
      next htwo =>
      split at h
      · next hthree =>
          split at h
          · simp only [Option.bind_eq_bind, Option.bind_eq_some_iff, continuation?_eq_some_iff]
              at h
            obtain ⟨j, ⟨hj, rfl⟩, k, ⟨hk, rfl⟩, h⟩ := h
            split at h
            · cases h
            · next hvalid =>
                cases h
                rw [utf8_of_three (Nat.not_lt.mp htwo) hthree hj hk hvalid]
                rfl
          · cases h
      next hthree =>
      split at h
      · next hfour =>
          split at h
          · simp only [Option.bind_eq_bind, Option.bind_eq_some_iff, continuation?_eq_some_iff]
              at h
            obtain ⟨j, ⟨hj, rfl⟩, k, ⟨hk, rfl⟩, l, ⟨hl, rfl⟩, h⟩ := h
            split at h
            · cases h
            · next hvalid =>
                cases h
                rw [utf8_of_four (Nat.not_lt.mp hthree) hfour hj hk hl hvalid]
                rfl
          · cases h
      · cases h

theorem character?_eq_some_iff {s rest : Bytes} :
    character? s = some (c, rest) ↔ s = String.utf8EncodeChar c ++ rest := by
  constructor
  · exact utf8_of_character?
  · rintro rfl
    exact character?_utf8 c rest

end Utf8

/-! ## Escapes -/

theorem shortEscape?_eq_some_iff {b : UInt8} {c : Char} :
    shortEscape? b = some c ↔ ∃ e, (e, c) ∈ shortEscapes ∧ b = ascii e := by
  constructor
  · intro h
    unfold shortEscape? at h
    split at h
    · next hb => cases h; exact ⟨'"', by decide, hb⟩
    split at h
    · next hb => cases h; exact ⟨'\\', by decide, hb⟩
    split at h
    · next hb => cases h; exact ⟨'/', by decide, hb⟩
    split at h
    · next hb => cases h; exact ⟨'b', by decide, hb⟩
    split at h
    · next hb => cases h; exact ⟨'f', by decide, hb⟩
    split at h
    · next hb => cases h; exact ⟨'n', by decide, hb⟩
    split at h
    · next hb => cases h; exact ⟨'r', by decide, hb⟩
    split at h
    · next hb => cases h; exact ⟨'t', by decide, hb⟩
    · cases h
  · have hall : ∀ m ∈ shortEscapes, shortEscape? (ascii m.1) = some m.2 := by decide
    rintro ⟨e, he, rfl⟩
    exact hall (e, c) he

/-- No short escape is spelled like the start of a code. -/
theorem shortEscape_ne {e c : Char} (h : (e, c) ∈ shortEscapes) : ascii e ≠ ascii 'u' := by
  have hall : ∀ m ∈ shortEscapes, ascii m.1 ≠ ascii 'u' := by decide
  exact hall (e, c) h

theorem hexCode?_eq_some_iff {s rest : Bytes} {n : Nat} :
    hexCode? s = some (n, rest) ↔ ∃ digits, HexCode n digits ∧ s = digits ++ rest := by
  constructor
  · intro h
    unfold hexCode? at h
    split at h
    · simp only [Option.bind_eq_bind, Option.bind_eq_some_iff, Option.pure_def,
        Option.some.injEq, Prod.mk.injEq] at h
      obtain ⟨i, hi, j, hj, k, hk, l, hl, rfl, rfl⟩ := h
      exact ⟨_, .digits hi hj hk hl, rfl⟩
    · cases h
  · rintro ⟨digits, ⟨hi, hj, hk, hl⟩, rfl⟩
    simp only [List.cons_append, List.nil_append, hexCode?, hi, hj, hk, hl, Option.bind_eq_bind,
      Option.bind_some, Option.pure_def]

theorem skipEscape?_eq_some_iff {s rest : Bytes} :
    skipEscape? s = some rest ↔
      ∃ piece, Piece (backslash :: piece) ∧ s = piece ++ rest := by
  constructor
  · intro h
    unfold skipEscape? at h
    split at h
    · cases h
    · split at h
      · next hu =>
          obtain ⟨⟨n, more⟩, hcode, rfl⟩ := Option.map_eq_some_iff.mp h
          obtain ⟨digits, hdigits, rfl⟩ := hexCode?_eq_some_iff.mp hcode
          exact ⟨ascii 'u' :: digits, .code hdigits, by rw [hu, List.cons_append]⟩
      · obtain ⟨c, hshort, rfl⟩ := Option.map_eq_some_iff.mp h
        obtain ⟨e, he, rfl⟩ := shortEscape?_eq_some_iff.mp hshort
        exact ⟨[ascii e], .short he, rfl⟩
  · rintro ⟨piece, hpiece, rfl⟩
    cases hpiece with
    | byte _ _ hescape => exact absurd rfl hescape
    | short he =>
        rw [List.cons_append, skipEscape?, if_neg (shortEscape_ne he),
          shortEscape?_eq_some_iff.mpr ⟨_, he, rfl⟩]
        rfl
    | code hdigits =>
        rw [List.cons_append, skipEscape?, if_pos rfl,
          hexCode?_eq_some_iff.mpr ⟨_, hdigits, rfl⟩]
        rfl

/-! ## Strings whose text does not matter -/

theorem skipString?_escape {s more : Bytes} (h : skipEscape? s = some more) :
    skipString? (backslash :: s) = skipString? more := by
  rw [skipString?, if_neg (by decide), if_neg (by decide), if_pos rfl]
  split
  · next hnone =>
      rw [h] at hnone
      cases hnone
  · next hsome =>
      rw [h] at hsome
      cases hsome
      rfl

theorem skipString?_piece {piece : Bytes} (h : Piece piece) (rest : Bytes) :
    skipString? (piece ++ rest) = skipString? rest := by
  cases h with
  | byte hlow hquote hescape =>
      rw [List.singleton_append, skipString?, if_neg hquote, if_neg hlow, if_neg hescape]
  | @short e c he =>
      exact skipString?_escape (skipEscape?_eq_some_iff.mpr ⟨[ascii e], .short he, rfl⟩)
  | @code n digits hdigits =>
      exact skipString?_escape
        (skipEscape?_eq_some_iff.mpr ⟨ascii 'u' :: digits, .code hdigits, rfl⟩)

/-- A string is read to its quote. -/
theorem skipString?_eq_some_iff {s rest : Bytes} :
    skipString? s = some rest ↔ ∃ body, Pieces body ∧ s = body ++ quote :: rest := by
  constructor
  · intro h
    fun_induction skipString? s with
    | case1 => cases h
    | case2 => cases h; exact ⟨[], .nil, rfl⟩
    | case3 => cases h
    | case4 => cases h
    | case5 tail more hmore _ _ ih =>
        obtain ⟨body, hbody, rfl⟩ := ih h
        obtain ⟨piece, hpiece, rfl⟩ := skipEscape?_eq_some_iff.mp hmore
        exact ⟨_, .cons hpiece hbody, by simp⟩
    | case6 b tail hquote hlow hescape ih =>
        obtain ⟨body, hbody, rfl⟩ := ih h
        exact ⟨_, .cons (.byte hlow hquote hescape) hbody, rfl⟩
  · rintro ⟨body, hbody, rfl⟩
    induction hbody with
    | nil => rw [List.nil_append, skipString?, if_pos rfl]
    | cons hpiece _ ih => rw [List.append_assoc, skipString?_piece hpiece, ih]

/-! ## Strings whose text matters -/

/-- The first byte of a character is the character where either of them is ASCII. -/
theorem toNat_head {c : Char} {b : UInt8} {tail : Bytes} (h : String.utf8EncodeChar c = b :: tail)
    (hascii : c.toNat < 0x80 ∨ b.toNat < 0x80) : c.toNat = b.toNat := by
  rcases hascii with hc | hb
  · rw [utf8_one hc] at h
    cases h
    exact (UInt8.toNat_ofNat_of_lt' (show _ < 256 by omega)).symm
  · have hread := character?_utf8 c []
    have hlt : b < 0x80 := by rwa [UInt8.lt_iff_toNat_lt]
    rw [List.append_nil, h] at hread
    simp only [character?, if_pos hlt] at hread
    cases hread
    exact toNat_ofNat_of_valid (Or.inl (by omega))

/-- A character stands for itself in a string where its first byte does. -/
theorem plain_iff_head {c : Char} {b : UInt8} {tail : Bytes}
    (h : String.utf8EncodeChar c = b :: tail) :
    (0x20 ≤ c.toNat ∧ c ≠ '"' ∧ c ≠ '\\') ↔ ¬ b < 0x20 ∧ b ≠ quote ∧ b ≠ backslash := by
  have hhead := toNat_head h
  have hquote : quote.toNat = '"'.toNat := rfl
  have hescape : backslash.toNat = '\\'.toNat := rfl
  have hsmall : '"'.toNat = 0x22 ∧ '\\'.toNat = 0x5C := ⟨rfl, rfl⟩
  simp only [UInt8.lt_iff_toNat_lt, ne_eq, ← UInt8.toNat_inj, ← Char.toNat_inj, hquote, hescape,
    UInt8.reduceToNat]
  omega

theorem hexDigit_lt {code i : Nat} (h : Hex.digit? code = some i) : i < 16 := by
  unfold Hex.digit? at h
  split at h
  · cases h; omega
  split at h
  · cases h; omega
  split at h
  · cases h; omega
  · cases h

theorem HexCode.lt {n : Nat} {digits : Bytes} (h : HexCode n digits) : n < 0x10000 := by
  obtain ⟨hi, hj, hk, hl⟩ := h
  have := hexDigit_lt hi
  have := hexDigit_lt hj
  have := hexDigit_lt hk
  have := hexDigit_lt hl
  omega

theorem pair_valid {high low : Nat} (hhigh : 0xD800 ≤ high ∧ high < 0xDC00)
    (hlow : 0xDC00 ≤ low ∧ low < 0xE000) :
    (0x10000 + (high - 0xD800) * 1024 + (low - 0xDC00)).isValidChar := by
  unfold Nat.isValidChar
  omega

theorem codeEscape?_eq_some_iff {s rest : Bytes} {c : Char} :
    codeEscape? s = some (c, rest) ↔
      ∃ first, Spells c (backslash :: ascii 'u' :: first) ∧ s = first ++ rest := by
  constructor
  · intro h
    simp only [codeEscape?, Option.bind_eq_bind, Option.bind_eq_some_iff] at h
    obtain ⟨⟨n, more⟩, hcode, h⟩ := h
    obtain ⟨digits, hdigits, rfl⟩ := hexCode?_eq_some_iff.mp hcode
    have hlimit := hdigits.lt
    dsimp only at h
    split at h
    · next halone =>
        cases h
        have hn : (Char.ofNat n).toNat = n := toNat_ofNat_of_valid (by omega)
        exact ⟨digits, .code (hn.symm ▸ hdigits), rfl⟩
    split at h
    · cases h
    · next hsurrogate hhigh =>
        simp only [Option.bind_eq_some_iff, byte?_eq_some_iff] at h
        obtain ⟨_, rfl, _, rfl, ⟨low, behind⟩, hlowCode, h⟩ := h
        obtain ⟨second, hsecond, rfl⟩ := hexCode?_eq_some_iff.mp hlowCode
        dsimp only at h
        split at h
        · next hlow =>
            simp only [Option.pure_def, Option.some.injEq, Prod.mk.injEq] at h
            obtain ⟨rfl, rfl⟩ := h
            have hpair : 0xD800 ≤ n ∧ n < 0xDC00 := by omega
            have hn := toNat_ofNat_of_valid (pair_valid hpair hlow)
            exact ⟨_, .pair hdigits hsecond hpair hlow hn, by simp⟩
        · cases h
  · rintro ⟨first, hfirst, rfl⟩
    generalize hs : backslash :: ascii 'u' :: first = spelling at hfirst
    cases hfirst with
    | utf8 hlow hquote hescape =>
        exact absurd rfl ((plain_iff_head hs.symm).mp ⟨hlow, hquote, hescape⟩).2.2
    | short he =>
        rw [List.cons.injEq, List.cons.injEq] at hs
        exact absurd hs.2.1.symm (shortEscape_ne he)
    | code hdigits =>
        cases hs
        have hvalid := toNat_not_surrogate c
        rw [codeEscape?, hexCode?_eq_some_iff.mpr ⟨_, hdigits, rfl⟩, Option.bind_eq_bind,
          Option.bind_some]
        dsimp only
        rw [if_pos hvalid, Char.ofNat_toNat]
        rfl
    | @pair _ high low digits second hdigits hsecond hhigh hlow hc =>
        cases hs
        simp only [List.append_assoc, List.cons_append, codeEscape?, Option.bind_eq_bind,
          Option.bind_eq_some_iff]
        refine ⟨(high, _), hexCode?_eq_some_iff.mpr ⟨_, hdigits, rfl⟩, ?_⟩
        rw [if_neg (by omega), if_neg (by omega)]
        simp only [Option.bind_eq_some_iff, byte?_eq_some_iff]
        refine ⟨_, rfl, _, rfl, (low, rest), hexCode?_eq_some_iff.mpr ⟨_, hsecond, rfl⟩, ?_⟩
        rw [if_pos hlow, ← hc, Char.ofNat_toNat]
        rfl

theorem escape?_eq_some_iff {s rest : Bytes} {c : Char} :
    escape? s = some (c, rest) ↔ ∃ first, Spells c (backslash :: first) ∧ s = first ++ rest := by
  constructor
  · intro h
    unfold escape? at h
    split at h
    · cases h
    · split at h
      · next hu =>
          obtain ⟨first, hfirst, rfl⟩ := codeEscape?_eq_some_iff.mp h
          exact ⟨ascii 'u' :: first, hfirst, by rw [hu, List.cons_append]⟩
      · obtain ⟨d, hshort, heq⟩ := Option.map_eq_some_iff.mp h
        cases heq
        obtain ⟨e, he, rfl⟩ := shortEscape?_eq_some_iff.mp hshort
        exact ⟨[ascii e], .short he, rfl⟩
  · rintro ⟨first, hfirst, rfl⟩
    generalize hs : backslash :: first = spelling at hfirst
    cases hfirst with
    | utf8 hlow hquote hescape =>
        exact absurd rfl ((plain_iff_head hs.symm).mp ⟨hlow, hquote, hescape⟩).2.2
    | short he =>
        cases hs
        rw [List.cons_append, escape?, if_neg (shortEscape_ne he),
          shortEscape?_eq_some_iff.mpr ⟨_, he, rfl⟩]
        rfl
    | code hdigits =>
        cases hs
        rw [List.cons_append, escape?, if_pos rfl]
        exact codeEscape?_eq_some_iff.mpr ⟨_, .code hdigits, rfl⟩
    | pair hdigits hsecond hhigh hlow hc =>
        cases hs
        rw [List.cons_append, escape?, if_pos rfl]
        exact codeEscape?_eq_some_iff.mpr ⟨_, .pair hdigits hsecond hhigh hlow hc, rfl⟩

theorem text?_escape {s more : Bytes} {c : Char} (h : escape? s = some (c, more)) :
    text? (backslash :: s) = (text? more).map fun (cs, behind) => (c :: cs, behind) := by
  rw [text?, if_neg (by decide), if_neg (by decide), if_pos rfl]
  split
  · next hnone =>
      rw [h] at hnone
      cases hnone
  · next hsome =>
      rw [h] at hsome
      cases hsome
      rfl

/-- A character that needs no escape is read from its bytes. -/
theorem text?_utf8 {c : Char} (hlow : 0x20 ≤ c.toNat) (hquote : c ≠ '"') (hescape : c ≠ '\\')
    (rest : Bytes) :
    text? (String.utf8EncodeChar c ++ rest) =
      (text? rest).map fun (cs, behind) => (c :: cs, behind) := by
  have hread := character?_utf8 c rest
  cases hbytes : String.utf8EncodeChar c with
  | nil => exact absurd hbytes String.utf8EncodeChar_ne_nil
  | cons b tail =>
      obtain ⟨hlow', hquote', hescape'⟩ := (plain_iff_head hbytes).mp ⟨hlow, hquote, hescape⟩
      rw [hbytes, List.cons_append] at hread
      rw [List.cons_append, text?, if_neg hquote', if_neg hlow', if_neg hescape']
      split
      · next hnone =>
          rw [hread] at hnone
          cases hnone
      · next hsome =>
          rw [hread] at hsome
          cases hsome
          rfl

theorem text?_spells {c : Char} {first : Bytes} (h : Spells c first) (rest : Bytes) :
    text? (first ++ rest) = (text? rest).map fun (cs, behind) => (c :: cs, behind) := by
  cases h with
  | utf8 hlow hquote hescape => exact text?_utf8 hlow hquote hescape rest
  | short he => exact text?_escape (escape?_eq_some_iff.mpr ⟨_, .short he, rfl⟩)
  | code hdigits => exact text?_escape (escape?_eq_some_iff.mpr ⟨_, .code hdigits, rfl⟩)
  | pair hfirst hsecond hhigh hlow hc =>
      exact text?_escape (escape?_eq_some_iff.mpr ⟨_, .pair hfirst hsecond hhigh hlow hc, rfl⟩)

/-- A string is read to its quote, and its text is the one that it spells. -/
theorem text?_eq_some_iff {s rest : Bytes} {cs : List Char} :
    text? s = some (cs, rest) ↔ ∃ body, SpellsAll cs body ∧ s = body ++ quote :: rest := by
  constructor
  · intro h
    fun_induction text? s generalizing cs rest with
    | case1 => cases h
    | case2 => cases h; exact ⟨[], .nil, rfl⟩
    | case3 => cases h
    | case4 => cases h
    | case5 tail c more hmore _ _ ih =>
        obtain ⟨⟨ds, behind⟩, htext, heq⟩ := Option.map_eq_some_iff.mp h
        cases heq
        obtain ⟨body, hbody, rfl⟩ := ih htext
        obtain ⟨first, hfirst, rfl⟩ := escape?_eq_some_iff.mp hmore
        exact ⟨_, .cons hfirst hbody, by simp⟩
    | case6 => cases h
    | case7 b tail hquote hlow hescape c more hmore ih =>
        obtain ⟨⟨ds, behind⟩, htext, heq⟩ := Option.map_eq_some_iff.mp h
        cases heq
        obtain ⟨body, hbody, rfl⟩ := ih htext
        have hbytes := character?_eq_some_iff.mp hmore
        cases hc : String.utf8EncodeChar c with
        | nil => exact absurd hc String.utf8EncodeChar_ne_nil
        | cons first others =>
            have hfirst : b = first := by
              rw [hc] at hbytes
              exact (List.cons.inj hbytes).1
            obtain ⟨hlow', hquote', hescape'⟩ :=
              (plain_iff_head hc).mpr (hfirst ▸ ⟨hlow, hquote, hescape⟩)
            exact ⟨_, .cons (.utf8 hlow' hquote' hescape') hbody,
              by rw [hbytes, List.append_assoc]⟩
  · rintro ⟨body, hbody, rfl⟩
    induction hbody with
    | nil => rw [List.nil_append, text?, if_pos rfl]
    | cons hfirst _ ih =>
        rw [List.append_assoc, text?_spells hfirst, ih]
        rfl

end InvertedFile.Json
