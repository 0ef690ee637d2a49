import PropAccord.Text.Utf8

/-!
# Decoding and encoding

The bytes of a character lead the decoder through one, two, three or four steps: the first byte
announces the others, and each of them lies within its bounds and brings six more bits. The other way
round, the bounds leave one sequence of bytes for each character, so bytes that can be decoded are
those of the text they hold.
-/

namespace PropAccord.Utf8

set_option autoImplicit false

theorem toNat_byte {n : Nat} (h : n < 256) : (UInt8.ofNat n).toNat = n := UInt8.toNat_ofNat_of_lt' h

/-- A continuation byte within its bounds brings six bits. -/
theorem decodeFrom_continue {p : Pending} {low high : UInt8} {expected : List (UInt8 × UInt8)}
    (hp : p.expected = (low, high) :: expected) {n : Nat} (hn : n < 64) (hlow : low.toNat ≤ n + 0x80)
    (hhigh : n + 0x80 ≤ high.toNat) (position : Nat) (rest : Bytes) :
    decodeFrom (some p) position (UInt8.ofNat (n + 0x80) :: rest) =
      if expected.isEmpty then
        (Char.ofNat (p.code * 0x40 + n) :: ·) <$> decodeFrom none (position + 1) rest
      else
        decodeFrom (some ⟨p.first, p.width + 1, p.code * 0x40 + n, expected⟩) (position + 1) rest := by
  have hb := toNat_byte (n := n + 0x80) (by omega)
  have hbounds : (decide (low ≤ UInt8.ofNat (n + 0x80)) && decide (UInt8.ofNat (n + 0x80) ≤ high)) =
      true := by
    simp only [UInt8.le_iff_toNat_le, hb, Bool.and_eq_true, decide_eq_true_eq]
    exact ⟨hlow, hhigh⟩
  have hbits : n + 0x80 - 0x80 = n := by omega
  rw [decodeFrom, step, hp]
  simp only [hbounds, if_true, hb, hbits]
  cases expected <;> rfl

/-- A first byte that announces others. -/
theorem decodeFrom_announce {b : UInt8} {code : Nat} {bounds : UInt8 × UInt8}
    {expected : List (UInt8 × UInt8)} (h : announce? b = some (code, bounds :: expected))
    (position : Nat) (rest : Bytes) :
    decodeFrom none position (b :: rest) =
      decodeFrom (some ⟨b, 1, code, bounds :: expected⟩) (position + 1) rest := by
  rw [decodeFrom, step, h]

theorem announce?_eq (b : UInt8) : announce? b =
    if b.toNat < 0x80 then some (b.toNat, [])
    else if b.toNat < 0xC2 then none
    else if b.toNat < 0xE0 then some (b.toNat - 0xC0, [continuation])
    else if b.toNat = 0xE0 then some (0, [(0xA0, 0xBF), continuation])
    else if b.toNat = 0xED then some (0x0D, [(0x80, 0x9F), continuation])
    else if b.toNat < 0xF0 then some (b.toNat - 0xE0, [continuation, continuation])
    else if b.toNat = 0xF0 then some (0, [(0x90, 0xBF), continuation, continuation])
    else if b.toNat = 0xF4 then some (4, [(0x80, 0x8F), continuation, continuation])
    else if b.toNat < 0xF4 then some (b.toNat - 0xF0, [continuation, continuation, continuation])
    else none := by
  simp only [announce?, UInt8.lt_iff_toNat_lt, beq_iff_eq, ← UInt8.toNat_inj]
  rfl

theorem decodeFrom_two {v : Nat} (h₁ : 0x80 ≤ v) (h₂ : v ≤ 0x7FF) (position : Nat) (rest : Bytes) :
    decodeFrom none position
        (UInt8.ofNat (v / 64 % 0x20 + 0xC0) :: UInt8.ofNat (v % 0x40 + 0x80) :: rest) =
      (Char.ofNat v :: ·) <$> decodeFrom none (position + 2) rest := by
  have hcode : v / 64 % 0x20 + 0xC0 - 0xC0 = v / 64 := by omega
  have ha : announce? (UInt8.ofNat (v / 64 % 0x20 + 0xC0)) = some (v / 64, [continuation]) := by
    rw [announce?_eq, toNat_byte (by omega), if_neg (by omega), if_neg (by omega),
      if_pos (by omega), hcode]
  have hv : v / 64 * 0x40 + v % 0x40 = v := by omega
  rw [decodeFrom_announce ha, decodeFrom_continue rfl (by omega) (by simp) (by simp; omega)]
  simp only [List.isEmpty_nil, if_true, hv]

/-- The first of three bytes bounds the second so that it fits. -/
theorem announce?_three {v : Nat} (h₁ : 0x800 ≤ v) (h₂ : v ≤ 0xFFFF)
    (hv : v < 0xD800 ∨ 0xDFFF < v) :
    ∃ low high, announce? (UInt8.ofNat (v / 4096 % 0x10 + 0xE0)) =
        some (v / 4096, [(low, high), continuation]) ∧
      low.toNat ≤ v / 64 % 0x40 + 0x80 ∧ v / 64 % 0x40 + 0x80 ≤ high.toNat := by
  have hn := toNat_byte (n := v / 4096 % 0x10 + 0xE0) (by omega)
  have ha := announce?_eq (UInt8.ofNat (v / 4096 % 0x10 + 0xE0))
  rw [hn, if_neg (by omega), if_neg (by omega), if_neg (by omega)] at ha
  by_cases h0 : v / 4096 = 0
  · rw [if_pos (by omega), ← h0] at ha
    exact ⟨0xA0, 0xBF, ha, by simp; omega, by simp; omega⟩
  · rw [if_neg (by omega)] at ha
    by_cases hd : v / 4096 = 0xD
    · rw [if_pos (by omega), ← hd] at ha
      exact ⟨0x80, 0x9F, ha, by simp, by simp; omega⟩
    · have hcode : v / 4096 % 0x10 + 0xE0 - 0xE0 = v / 4096 := by omega
      rw [if_neg (by omega), if_pos (by omega), hcode] at ha
      exact ⟨0x80, 0xBF, ha, by simp, by simp; omega⟩

theorem decodeFrom_three {v : Nat} (h₁ : 0x800 ≤ v) (h₂ : v ≤ 0xFFFF)
    (hvalid : v < 0xD800 ∨ 0xDFFF < v) (position : Nat) (rest : Bytes) :
    decodeFrom none position (UInt8.ofNat (v / 4096 % 0x10 + 0xE0) ::
        UInt8.ofNat (v / 64 % 0x40 + 0x80) :: UInt8.ofNat (v % 0x40 + 0x80) :: rest) =
      (Char.ofNat v :: ·) <$> decodeFrom none (position + 3) rest := by
  obtain ⟨low, high, ha, hlow, hhigh⟩ := announce?_three h₁ h₂ hvalid
  have hv : (v / 4096 * 0x40 + v / 64 % 0x40) * 0x40 + v % 0x40 = v := by omega
  rw [decodeFrom_announce ha, decodeFrom_continue rfl (by omega) hlow hhigh]
  simp only [List.isEmpty_cons, Bool.false_eq_true, if_false]
  rw [decodeFrom_continue rfl (by omega) (by simp) (by simp; omega)]
  simp only [List.isEmpty_nil, if_true, hv]

/-- The first of four bytes bounds the second so that it fits. -/
theorem announce?_four {v : Nat} (h₁ : 0x10000 ≤ v) (h₂ : v < 0x110000) :
    ∃ low high, announce? (UInt8.ofNat (v / 262144 % 0x08 + 0xF0)) =
        some (v / 262144, [(low, high), continuation, continuation]) ∧
      low.toNat ≤ v / 4096 % 0x40 + 0x80 ∧ v / 4096 % 0x40 + 0x80 ≤ high.toNat := by
  have hn := toNat_byte (n := v / 262144 % 0x08 + 0xF0) (by omega)
  have ha := announce?_eq (UInt8.ofNat (v / 262144 % 0x08 + 0xF0))
  rw [hn, if_neg (by omega), if_neg (by omega), if_neg (by omega), if_neg (by omega),
    if_neg (by omega), if_neg (by omega)] at ha
  by_cases h0 : v / 262144 = 0
  · rw [if_pos (by omega), ← h0] at ha
    exact ⟨0x90, 0xBF, ha, by simp; omega, by simp; omega⟩
  · rw [if_neg (by omega)] at ha
    by_cases h4 : v / 262144 = 4
    · rw [if_pos (by omega), ← h4] at ha
      exact ⟨0x80, 0x8F, ha, by simp, by simp; omega⟩
    · have hcode : v / 262144 % 0x08 + 0xF0 - 0xF0 = v / 262144 := by omega
      rw [if_neg (by omega), if_pos (by omega), hcode] at ha
      exact ⟨0x80, 0xBF, ha, by simp, by simp; omega⟩

theorem decodeFrom_four {v : Nat} (h₁ : 0x10000 ≤ v) (h₂ : v < 0x110000) (position : Nat)
    (rest : Bytes) :
    decodeFrom none position (UInt8.ofNat (v / 262144 % 0x08 + 0xF0) ::
        UInt8.ofNat (v / 4096 % 0x40 + 0x80) :: UInt8.ofNat (v / 64 % 0x40 + 0x80) ::
        UInt8.ofNat (v % 0x40 + 0x80) :: rest) =
      (Char.ofNat v :: ·) <$> decodeFrom none (position + 4) rest := by
  obtain ⟨low, high, ha, hlow, hhigh⟩ := announce?_four h₁ h₂
  have hv : ((v / 262144 * 0x40 + v / 4096 % 0x40) * 0x40 + v / 64 % 0x40) * 0x40 + v % 0x40 = v := by
    omega
  rw [decodeFrom_announce ha, decodeFrom_continue rfl (by omega) hlow hhigh]
  simp only [List.isEmpty_cons, Bool.false_eq_true, if_false]
  rw [decodeFrom_continue rfl (by omega) (by simp) (by simp; omega)]
  simp only [List.isEmpty_cons, Bool.false_eq_true, if_false]
  rw [decodeFrom_continue rfl (by omega) (by simp) (by simp; omega)]
  simp only [List.isEmpty_nil, if_true, hv]

/-- A character is read off the front, however many bytes it has. -/
theorem decodeFrom_encodeChar (c : Char) (position : Nat) (rest : Bytes) :
    decodeFrom none position (String.utf8EncodeChar c ++ rest) =
      (c :: ·) <$> decodeFrom none (position + (String.utf8EncodeChar c).length) rest := by
  have hchar : Char.ofNat c.val.toNat = c := Char.ofNat_toNat c
  have hvalid : c.val.toNat < 0xD800 ∨ 0xDFFF < c.val.toNat ∧ c.val.toNat < 0x110000 := c.valid
  unfold String.utf8EncodeChar
  simp only
  split
  · rename_i h
    have ha : announce? (UInt8.ofNat c.val.toNat) = some (c.val.toNat, []) := by
      rw [announce?_eq, toNat_byte (by omega), if_pos (by omega)]
    rw [List.singleton_append, decodeFrom, step, ha]
    simp only [hchar]
    rfl
  · split
    · have htwo := decodeFrom_two (v := c.val.toNat) (by omega) (by omega) position rest
      rwa [hchar] at htwo
    · split
      · have hthree := decodeFrom_three (v := c.val.toNat) (by omega) (by omega) (by omega)
          position rest
        rwa [hchar] at hthree
      · have hfour := decodeFrom_four (v := c.val.toNat) (by omega) (by omega) position rest
        rwa [hchar] at hfour

theorem decodeFrom_encode (t : Text) (position : Nat) :
    decodeFrom none position (encode t) = .ok t := by
  induction t generalizing position with
  | nil => rfl
  | cons c t ih =>
    have hc := decodeFrom_encodeChar c position (encode t)
    rw [ih] at hc
    exact hc

/-- What was encoded decodes to itself. -/
theorem decode_encode (t : Text) : decode (encode t) = .ok t := decodeFrom_encode t 0

/-! ## Encoding what was decoded -/

/-- The bytes of a code point, by the number of bytes. -/
theorem encodeChar_ofNat {v : Nat} (hvalid : v < 0xD800 ∨ 0xDFFF < v ∧ v < 0x110000) :
    String.utf8EncodeChar (Char.ofNat v) =
      if v ≤ 0x7F then [UInt8.ofNat v]
      else if v ≤ 0x7FF then [UInt8.ofNat (v / 64 % 0x20 + 0xC0), UInt8.ofNat (v % 0x40 + 0x80)]
      else if v ≤ 0xFFFF then [UInt8.ofNat (v / 4096 % 0x10 + 0xE0),
        UInt8.ofNat (v / 64 % 0x40 + 0x80), UInt8.ofNat (v % 0x40 + 0x80)]
      else [UInt8.ofNat (v / 262144 % 0x08 + 0xF0), UInt8.ofNat (v / 4096 % 0x40 + 0x80),
        UInt8.ofNat (v / 64 % 0x40 + 0x80), UInt8.ofNat (v % 0x40 + 0x80)] := by
  have hval : (Char.ofNat v).val.toNat = v := by
    rw [Char.ofNat, dif_pos hvalid]
    rfl
  unfold String.utf8EncodeChar
  simp only [hval]

/-- A byte that continues a character within bounds, by the six bits it brings. -/
theorem exists_bits_of_pending {p : Pending} {low high : UInt8} {expected : List (UInt8 × UInt8)}
    (hp : p.expected = (low, high) :: expected) (hlow : 0x80 ≤ low.toNat) (hhigh : high.toNat ≤ 0xBF)
    {position : Nat} {bytes : Bytes} {t : Text} (h : decodeFrom (some p) position bytes = .ok t) :
    ∃ n rest, bytes = UInt8.ofNat (n + 0x80) :: rest ∧ n < 64 ∧ low.toNat ≤ n + 0x80 ∧
      n + 0x80 ≤ high.toNat := by
  cases bytes with
  | nil => cases h
  | cons b rest =>
    rw [decodeFrom, step, hp] at h
    by_cases hb : (decide (low ≤ b) && decide (b ≤ high)) = true
    · simp only [Bool.and_eq_true, decide_eq_true_eq, UInt8.le_iff_toNat_le] at hb
      have hbyte : b = UInt8.ofNat (b.toNat - 0x80 + 0x80) := by
        rw [Nat.sub_add_cancel (by omega), UInt8.ofNat_toNat]
      exact ⟨b.toNat - 0x80, rest, hbyte ▸ rfl, by omega, by omega, by omega⟩
    · simp only [hb] at h
      cases h

theorem exists_of_map_eq_ok {c : Char} {result : Except Fault Text} {t : Text}
    (h : (c :: ·) <$> result = .ok t) : ∃ t', t = c :: t' ∧ result = .ok t' := by
  cases result with
  | error fault => cases h
  | ok t' => exact ⟨t', (Except.ok.inj h).symm, rfl⟩

/-- What a first byte announces, with the bounds of the second byte that keep codes valid. -/
theorem announce?_cases {b : UInt8} {code : Nat} {expected : List (UInt8 × UInt8)}
    (h : announce? b = some (code, expected)) :
    (b.toNat < 0x80 ∧ code = b.toNat ∧ expected = []) ∨
    (0xC2 ≤ b.toNat ∧ b.toNat < 0xE0 ∧ code = b.toNat - 0xC0 ∧ expected = [continuation]) ∨
    ∃ low high : UInt8, 0x80 ≤ low.toNat ∧ high.toNat ≤ 0xBF ∧
      ((0xE0 ≤ b.toNat ∧ b.toNat < 0xF0 ∧ code = b.toNat - 0xE0 ∧
          expected = [(low, high), continuation] ∧ (code = 0 → 0xA0 ≤ low.toNat) ∧
          (code = 0xD → high.toNat ≤ 0x9F)) ∨
        (0xF0 ≤ b.toNat ∧ b.toNat ≤ 0xF4 ∧ code = b.toNat - 0xF0 ∧
          expected = [(low, high), continuation, continuation] ∧ (code = 0 → 0x90 ≤ low.toNat) ∧
          (code = 4 → high.toNat ≤ 0x8F))) := by
  rw [announce?_eq] at h
  split at h
  · obtain ⟨rfl, rfl⟩ := Prod.mk.inj (Option.some.inj h)
    exact Or.inl ⟨by assumption, rfl, rfl⟩
  split at h
  · cases h
  split at h
  · obtain ⟨rfl, rfl⟩ := Prod.mk.inj (Option.some.inj h)
    exact Or.inr (Or.inl ⟨by omega, by assumption, rfl, rfl⟩)
  refine Or.inr (Or.inr ?_)
  split at h
  · obtain ⟨rfl, rfl⟩ := Prod.mk.inj (Option.some.inj h)
    exact ⟨0xA0, 0xBF, by decide, by decide,
      Or.inl ⟨by omega, by omega, by omega, rfl, by decide, by omega⟩⟩
  split at h
  · obtain ⟨rfl, rfl⟩ := Prod.mk.inj (Option.some.inj h)
    exact ⟨0x80, 0x9F, by decide, by decide,
      Or.inl ⟨by omega, by omega, by omega, rfl, by omega, by decide⟩⟩
  split at h
  · obtain ⟨rfl, rfl⟩ := Prod.mk.inj (Option.some.inj h)
    exact ⟨0x80, 0xBF, by decide, by decide,
      Or.inl ⟨by omega, by omega, rfl, rfl, by omega, by omega⟩⟩
  split at h
  · obtain ⟨rfl, rfl⟩ := Prod.mk.inj (Option.some.inj h)
    exact ⟨0x90, 0xBF, by decide, by decide,
      Or.inr ⟨by omega, by omega, by omega, rfl, by decide, by omega⟩⟩
  split at h
  · obtain ⟨rfl, rfl⟩ := Prod.mk.inj (Option.some.inj h)
    exact ⟨0x80, 0x8F, by decide, by decide,
      Or.inr ⟨by omega, by omega, by omega, rfl, by omega, by decide⟩⟩
  split at h
  · obtain ⟨rfl, rfl⟩ := Prod.mk.inj (Option.some.inj h)
    exact ⟨0x80, 0xBF, by decide, by decide,
      Or.inr ⟨by omega, by omega, rfl, rfl, by omega, by omega⟩⟩
  · cases h

theorem byte_eq {b : UInt8} {n : Nat} (h : n = b.toNat) : UInt8.ofNat n = b := by
  rw [h, UInt8.ofNat_toNat]

theorem encodeChar_two {b : UInt8} {code n : Nat} (hb₁ : 0xC2 ≤ b.toNat) (hb₂ : b.toNat < 0xE0)
    (hcode : code = b.toNat - 0xC0) (hn : n < 64) :
    String.utf8EncodeChar (Char.ofNat (code * 0x40 + n)) = [b, UInt8.ofNat (n + 0x80)] := by
  have hlast : (code * 0x40 + n) % 0x40 = n := by omega
  rw [encodeChar_ofNat (by omega), if_neg (by omega), if_pos (by omega), byte_eq (b := b) (by omega),
    hlast]

theorem encodeChar_three {b : UInt8} {code m n : Nat} (hb₁ : 0xE0 ≤ b.toNat) (hb₂ : b.toNat < 0xF0)
    (hcode : code = b.toNat - 0xE0) (hm : m < 64) (hn : n < 64) (hlow : code = 0 → 0x20 ≤ m)
    (hhigh : code = 0xD → m < 0x20) :
    String.utf8EncodeChar (Char.ofNat ((code * 0x40 + m) * 0x40 + n)) =
      [b, UInt8.ofNat (m + 0x80), UInt8.ofNat (n + 0x80)] := by
  have hmiddle : ((code * 0x40 + m) * 0x40 + n) / 64 % 0x40 = m := by omega
  have hlast : ((code * 0x40 + m) * 0x40 + n) % 0x40 = n := by omega
  rw [encodeChar_ofNat (by omega), if_neg (by omega), if_neg (by omega), if_pos (by omega),
    byte_eq (b := b) (by omega), hmiddle, hlast]

theorem encodeChar_four {b : UInt8} {code m k n : Nat} (hb₁ : 0xF0 ≤ b.toNat) (hb₂ : b.toNat ≤ 0xF4)
    (hcode : code = b.toNat - 0xF0) (hm : m < 64) (hk : k < 64) (hn : n < 64)
    (hlow : code = 0 → 0x10 ≤ m) (hhigh : code = 4 → m < 0x10) :
    String.utf8EncodeChar (Char.ofNat (((code * 0x40 + m) * 0x40 + k) * 0x40 + n)) =
      [b, UInt8.ofNat (m + 0x80), UInt8.ofNat (k + 0x80), UInt8.ofNat (n + 0x80)] := by
  have hsecond : (((code * 0x40 + m) * 0x40 + k) * 0x40 + n) / 4096 % 0x40 = m := by omega
  have hthird : (((code * 0x40 + m) * 0x40 + k) * 0x40 + n) / 64 % 0x40 = k := by omega
  have hlast : (((code * 0x40 + m) * 0x40 + k) * 0x40 + n) % 0x40 = n := by omega
  rw [encodeChar_ofNat (by omega), if_neg (by omega), if_neg (by omega), if_neg (by omega),
    byte_eq (b := b) (by omega), hsecond, hthird, hlast]

/-- The last byte of a character completes it. -/
theorem exists_char_of_last {first : UInt8} {width code position : Nat} {bytes : Bytes} {t : Text}
    (h : decodeFrom (some ⟨first, width, code, [continuation]⟩) position bytes = .ok t) :
    ∃ n rest t', n < 64 ∧ bytes = UInt8.ofNat (n + 0x80) :: rest ∧
      t = Char.ofNat (code * 0x40 + n) :: t' ∧ decodeFrom none (position + 1) rest = .ok t' := by
  obtain ⟨n, rest, rfl, hn, hlow, hhigh⟩ := exists_bits_of_pending rfl (by decide) (by decide) h
  rw [decodeFrom_continue rfl hn hlow hhigh] at h
  obtain ⟨t', ht, hrest⟩ := exists_of_map_eq_ok h
  exact ⟨n, rest, t', hn, rfl, ht, hrest⟩

/-- A byte before the last one brings six bits. -/
theorem exists_pending_of_pending {first : UInt8} {width code position : Nat} {low high : UInt8}
    {next : UInt8 × UInt8} {expected : List (UInt8 × UInt8)} {bytes : Bytes} {t : Text}
    (hlow : 0x80 ≤ low.toNat) (hhigh : high.toNat ≤ 0xBF)
    (h : decodeFrom (some ⟨first, width, code, (low, high) :: next :: expected⟩) position bytes =
      .ok t) :
    ∃ n rest, n < 64 ∧ low.toNat ≤ n + 0x80 ∧ n + 0x80 ≤ high.toNat ∧
      bytes = UInt8.ofNat (n + 0x80) :: rest ∧
      decodeFrom (some ⟨first, width + 1, code * 0x40 + n, next :: expected⟩) (position + 1) rest =
        .ok t := by
  obtain ⟨n, rest, rfl, hn, hnlow, hnhigh⟩ := exists_bits_of_pending rfl hlow hhigh h
  rw [decodeFrom_continue rfl hn hnlow hnhigh] at h
  exact ⟨n, rest, hn, hnlow, hnhigh, rfl, h⟩

/-- Decoding takes the bytes of one character off the front. -/
theorem exists_char_of_decodeFrom {position : Nat} {b : UInt8} {bytes : Bytes} {t : Text}
    (h : decodeFrom none position (b :: bytes) = .ok t) :
    ∃ c rest t' position', b :: bytes = String.utf8EncodeChar c ++ rest ∧ t = c :: t' ∧
      decodeFrom none position' rest = .ok t' := by
  cases ha : announce? b with
  | none =>
    rw [decodeFrom, step, ha] at h
    cases h
  | some announced =>
    obtain ⟨code, expected⟩ := announced
    rcases announce?_cases ha with ⟨hb, rfl, rfl⟩ | ⟨hb₁, hb₂, hcode, rfl⟩ |
      ⟨low, high, hlow, hhigh, ⟨hb₁, hb₂, hcode, rfl, h₀, hd⟩ | ⟨hb₁, hb₂, hcode, rfl, h₀, h₄⟩⟩
    · rw [decodeFrom, step, ha] at h
      obtain ⟨t', rfl, ht⟩ := exists_of_map_eq_ok h
      refine ⟨Char.ofNat b.toNat, bytes, t', _, ?_, rfl, ht⟩
      rw [encodeChar_ofNat (by omega), if_pos (by omega), UInt8.ofNat_toNat]
      rfl
    · rw [decodeFrom_announce ha] at h
      obtain ⟨n, rest, t', hn, rfl, rfl, ht⟩ := exists_char_of_last h
      refine ⟨_, rest, t', _, ?_, rfl, ht⟩
      rw [encodeChar_two hb₁ hb₂ hcode hn]
      rfl
    · rw [decodeFrom_announce ha] at h
      obtain ⟨m, behind, hm, hmlow, hmhigh, rfl, h₂⟩ := exists_pending_of_pending hlow hhigh h
      obtain ⟨n, rest, t', hn, rfl, rfl, ht⟩ := exists_char_of_last h₂
      refine ⟨_, rest, t', _, ?_, rfl, ht⟩
      rw [encodeChar_three hb₁ hb₂ hcode hm hn (by omega) (by omega)]
      rfl
    · rw [decodeFrom_announce ha] at h
      obtain ⟨m, behind₁, hm, hmlow, hmhigh, rfl, h₂⟩ := exists_pending_of_pending hlow hhigh h
      obtain ⟨k, behind₂, hk, -, -, rfl, h₃⟩ :=
        exists_pending_of_pending (by decide) (by decide) h₂
      obtain ⟨n, rest, t', hn, rfl, rfl, ht⟩ := exists_char_of_last h₃
      refine ⟨_, rest, t', _, ?_, rfl, ht⟩
      rw [encodeChar_four hb₁ hb₂ hcode hm hk hn (by omega) (by omega)]
      rfl

theorem encode_of_decodeFrom {position : Nat} {bytes : Bytes} {t : Text}
    (h : decodeFrom none position bytes = .ok t) : encode t = bytes := by
  induction hlength : bytes.length using Nat.strongRecOn generalizing bytes t position with
  | ind n ih =>
    cases bytes with
    | nil =>
      cases h
      rfl
    | cons b bytes =>
      obtain ⟨c, rest, t', position', hbytes, rfl, ht⟩ := exists_char_of_decodeFrom h
      have hlt : rest.length < n := by
        have hpos := List.length_pos_iff.2 (String.utf8EncodeChar_ne_nil (c := c))
        rw [hbytes, List.length_append] at hlength
        omega
      rw [hbytes, ← ih _ hlt ht rfl]
      rfl

/-- What was decoded encodes to the bytes it came from. -/
theorem encode_of_decode {bytes : Bytes} {t : Text} (h : decode bytes = .ok t) : encode t = bytes :=
  encode_of_decodeFrom h

end PropAccord.Utf8
