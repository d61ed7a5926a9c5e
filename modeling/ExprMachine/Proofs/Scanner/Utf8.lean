import ExprMachine.Text.Utf8

/-!
# Characters as bytes

What the bytes of a text tell about its characters to a reader that takes them one by one.

* `octets_cases` — the bytes of one character;
* `size`, `isValid_size` — the number of bytes of a text, which is a place where a longer text can be
  cut;
* `Blind` — classes that do not tell characters beyond ASCII apart, which are those that a single
  byte decides;
* `takeWhile_encode` — the characters of such a class at the beginning of a text are its bytes of that
  class;
* `isTail_encode` — the bytes of a character after the first.
-/

namespace ExprMachine.Text.Utf8

theorem encode_cons (c : Char) (s : List Char) :
    encode (c :: s) = String.utf8EncodeChar c ++ encode s := rfl

/-- The number of bytes of a text. -/
def size (s : List Char) : Nat := (encode s).length

theorem size_append (s t : List Char) : size (s ++ t) = size s + size t := by
  rw [size, encode_append, List.length_append, size, size]

theorem drop_size (s t : List Char) : (encode (s ++ t)).drop (size s) = encode t := by
  rw [encode_append, size, List.drop_left]

theorem take_size (s t : List Char) : (encode (s ++ t)).take (size s) = encode s := by
  rw [encode_append, size, List.take_left]

theorem size_toList (s : String) : size s.toList = s.utf8ByteSize := by
  rw [← String.size_toByteArray, ← String.ofList_toList (s := s), String.toByteArray_ofList,
    List.utf8Encode, List.size_toByteArray, String.toList_ofList]
  rfl

/-- A text has no more characters than bytes. -/
theorem length_le_size (s : List Char) : s.length ≤ size s := by
  induction s with
  | nil => exact Nat.le_refl 0
  | cons c s ih =>
    have hc := c.utf8Size_pos
    rw [size, encode_cons, List.length_append, String.length_utf8EncodeChar, List.length_cons]
    exact Nat.add_comm s.length 1 ▸ Nat.add_le_add hc ih

/-- A text can be cut behind any of its beginnings. -/
theorem isValid_size {source : String} {s t : List Char} (h : source.toList = s ++ t) :
    String.Pos.Raw.IsValid source ⟨size s⟩ := by
  refine String.Pos.Raw.isValid_iff_exists_append.2 ⟨String.ofList s, String.ofList t, ?_, ?_⟩
  · rw [← String.ofList_append, ← h, String.ofList_toList]
  · apply String.Pos.Raw.ext
    rw [String.byteIdx_rawEndPos, ← size_toList, String.toList_ofList]

/-- A character is one byte of its own, or a lead byte and tail bytes. -/
theorem octets_cases (c : Char) :
    (c.toNat < 0x80 ∧ String.utf8EncodeChar c = [UInt8.ofNat c.toNat]) ∨
      (0x80 ≤ c.toNat ∧ ∃ lead tail, String.utf8EncodeChar c = lead :: tail ∧
        0xC0 ≤ lead.toNat ∧ ∀ b ∈ tail, 0x80 ≤ b.toNat ∧ b.toNat < 0xC0) := by
  have hcode : c.val.toNat = c.toNat := rfl
  have hmax : c.toNat < 0x110000 := by
    have := c.valid
    simp only [UInt32.isValidChar, Nat.isValidChar] at this
    omega
  unfold String.utf8EncodeChar
  simp only [hcode]
  split
  · exact Or.inl ⟨by omega, rfl⟩
  · refine Or.inr ⟨by omega, ?_⟩
    split
    · refine ⟨_, _, rfl, ?_⟩
      simp
      omega
    split
    · refine ⟨_, _, rfl, ?_⟩
      simp
      omega
    · refine ⟨_, _, rfl, ?_⟩
      simp
      omega

theorem toNat_ofUInt8 (b : UInt8) : (Char.ofUInt8 b).toNat = b.toNat := rfl

theorem ofUInt8_of_ascii {c : Char} (h : c.toNat < 0x80) :
    Char.ofUInt8 (UInt8.ofNat c.toNat) = c := by
  have hbyte : (UInt8.ofNat c.toNat).toNat = c.toNat := by
    rw [UInt8.toNat_ofNat']
    omega
  exact Char.ext (UInt32.toNat_inj.1 hbyte)

/-- A class of characters with all or none of those beyond ASCII in it. -/
def Blind (p : Char → Bool) : Prop :=
  ∀ c d : Char, 0x80 ≤ c.toNat → 0x80 ≤ d.toNat → p c = p d

section Classes

variable {p : Char → Bool}

/-- Classes of ASCII characters. -/
theorem blind_of_ascii (hp : ∀ c, p c = true → c.toNat < 0x80) : Blind p := by
  have hnone : ∀ c : Char, 0x80 ≤ c.toNat → p c = false := fun c hc =>
    Bool.eq_false_iff.2 fun h => by
      have := hp c h
      omega
  intro c d hc hd
  rw [hnone c hc, hnone d hd]

theorem blind_not_eq {d : Char} (hd : d.toNat < 0x80) : Blind (· ≠ d) := by
  have hne : ∀ c : Char, 0x80 ≤ c.toNat → c ≠ d := by
    rintro c hc rfl
    omega
  intro c e hc he
  simp only [decide_eq_true (hne c hc), decide_eq_true (hne e he)]

theorem blind_eq {d : Char} (hd : d.toNat < 0x80) : Blind (· = d) :=
  blind_of_ascii fun c hc => by rwa [of_decide_eq_true hc]

theorem ascii_of_le {c d : Char} (h : c.val ≤ d.val) (hd : d.toNat < 0x80) : c.toNat < 0x80 :=
  Nat.lt_of_le_of_lt (UInt32.le_iff_toNat_le.1 h) hd

theorem ascii_of_isDigit {c : Char} (h : c.isDigit = true) : c.toNat < 0x80 := by
  simp only [Char.isDigit, Bool.and_eq_true, decide_eq_true_eq] at h
  exact ascii_of_le (d := '9') h.2 (by decide)

theorem blind_isDigit : Blind Char.isDigit := blind_of_ascii fun _ => ascii_of_isDigit

/-- A letter is in one of two ranges. -/
theorem isAlpha_cases {c : Char} (h : c.isAlpha = true) :
    ('A'.val ≤ c.val ∧ c.val ≤ 'Z'.val) ∨ ('a'.val ≤ c.val ∧ c.val ≤ 'z'.val) := by
  have hcase : (c.isUpper || c.isLower) = true := h
  rcases Bool.or_eq_true_iff.1 hcase with hupper | hlower
  · have hrange : c.val ≥ 'A'.val ∧ c.val ≤ 'Z'.val := of_decide_eq_true hupper
    exact .inl hrange
  · have hrange : (decide (c.val ≥ 'a'.val) && decide (c.val ≤ 'z'.val)) = true := hlower
    obtain ⟨hlow, hhigh⟩ := Bool.and_eq_true_iff.1 hrange
    exact .inr ⟨of_decide_eq_true hlow, of_decide_eq_true hhigh⟩

theorem ascii_of_isAlpha {c : Char} (h : c.isAlpha = true) : c.toNat < 0x80 := by
  rcases isAlpha_cases h with ⟨-, hhigh⟩ | ⟨-, hhigh⟩
  · exact ascii_of_le hhigh (by decide)
  · exact ascii_of_le hhigh (by decide)

/-- Every byte of a character is in the class that the character is in. -/
theorem Blind.octet (hp : Blind p) (c : Char) :
    ∀ b ∈ String.utf8EncodeChar c, p (Char.ofUInt8 b) = p c := by
  intro b hb
  obtain ⟨hascii, hoctets⟩ | ⟨hlong, lead, tail, hoctets, hlead, htail⟩ := octets_cases c
  · rw [hoctets, List.mem_singleton] at hb
    rw [hb, ofUInt8_of_ascii hascii]
  · have hb' : 0x80 ≤ b.toNat := by
      rw [hoctets, List.mem_cons] at hb
      rcases hb with rfl | hb
      · omega
      · exact (htail b hb).1
    exact hp _ c (by rwa [toNat_ofUInt8]) hlong

theorem takeWhile_encode (hp : Blind p) (s : List Char) :
    (encode s).takeWhile (fun b => p (Char.ofUInt8 b)) = encode (s.takeWhile p) := by
  induction s with
  | nil => rfl
  | cons c s ih =>
    by_cases hc : p c = true
    · have hall : ∀ b ∈ String.utf8EncodeChar c, p (Char.ofUInt8 b) = true := fun b hb =>
        (hp.octet c b hb).trans hc
      rw [encode_cons, List.takeWhile_append_of_pos hall, ih, List.takeWhile_cons_of_pos hc,
        encode_cons]
    · obtain ⟨b, tail, hoctets⟩ : ∃ b tail, String.utf8EncodeChar c = b :: tail :=
        List.exists_cons_of_ne_nil (by simp)
      have hb : ¬ p (Char.ofUInt8 b) = true := by
        rwa [hp.octet c b (by rw [hoctets]; exact List.mem_cons_self)]
      rw [encode_cons, hoctets, List.cons_append, List.takeWhile_cons, if_neg hb,
        List.takeWhile_cons_of_neg hc, encode_nil]

end Classes

/-- The first byte of a text is an ASCII character if the first character is. -/
theorem ofUInt8_head {c d : Char} {s : List Char} {b : UInt8} {bytes : List UInt8}
    (h : encode (c :: s) = b :: bytes) (hd : d.toNat < 0x80) : Char.ofUInt8 b = d ↔ c = d := by
  have hmem : b ∈ String.utf8EncodeChar c := by
    obtain ⟨first, tail, hoctets⟩ : ∃ first tail, String.utf8EncodeChar c = first :: tail :=
      List.exists_cons_of_ne_nil (by simp)
    rw [encode_cons, hoctets, List.cons_append] at h
    rw [hoctets, (List.cons.inj h).1]
    exact List.mem_cons_self
  simpa using (blind_eq hd).octet c b hmem

/-- The first byte of a text is beyond ASCII if the first character is. -/
theorem le_ofUInt8_head {c : Char} {s : List Char} {b : UInt8} {bytes : List UInt8}
    (h : encode (c :: s) = b :: bytes) (hc : 0x80 ≤ c.toNat) : 0x80 ≤ (Char.ofUInt8 b).toNat := by
  obtain ⟨hascii, -⟩ | ⟨-, lead, tail, hoctets, hlead, -⟩ := octets_cases c
  · omega
  · rw [encode_cons, hoctets, List.cons_append] at h
    rw [toNat_ofUInt8, ← (List.cons.inj h).1]
    omega

theorem any_head?_encode {p : Char → Bool} (hp : Blind p) (s : List Char) :
    ((encode s).head?.map Char.ofUInt8).any p = s.head?.any p := by
  cases s with
  | nil => rfl
  | cons c s =>
    obtain ⟨b, bytes, hoctets⟩ : ∃ b bytes, String.utf8EncodeChar c = b :: bytes :=
      List.exists_cons_of_ne_nil (by simp)
    have hb := hp.octet c b (by rw [hoctets]; exact List.mem_cons_self)
    simpa [encode_cons, hoctets] using hb

theorem head?_encode {d : Char} (hd : d.toNat < 0x80) (s : List Char) :
    (encode s).head?.map Char.ofUInt8 = some d ↔ s.head? = some d := by
  cases s with
  | nil => simp
  | cons c s =>
    obtain ⟨b, bytes, hbytes⟩ : ∃ b bytes, encode (c :: s) = b :: bytes :=
      List.exists_cons_of_ne_nil (by simp [encode_cons])
    simpa [hbytes] using ofUInt8_head hbytes hd

theorem size_ascii {c : Char} (hc : c.toNat < 0x80) : size [c] = 1 := by
  obtain ⟨-, hoctets⟩ | ⟨hlong, -⟩ := octets_cases c
  · rw [size, encode_cons, hoctets]
    rfl
  · omega

theorem encode_ascii {c : Char} (hc : c.toNat < 0x80) (s : List Char) :
    encode (c :: s) = UInt8.ofNat c.toNat :: encode s := by
  obtain ⟨-, hoctets⟩ | ⟨hlong, -⟩ := octets_cases c
  · rw [encode_cons, hoctets, List.singleton_append]
  · omega

/-- ASCII characters are their own bytes. -/
theorem map_encode {s : List Char} (h : ∀ c ∈ s, c.toNat < 0x80) :
    (encode s).map Char.ofUInt8 = s := by
  induction s with
  | nil => rfl
  | cons c s ih =>
    simp only [List.mem_cons, forall_eq_or_imp] at h
    rw [encode_ascii h.1, List.map_cons, ofUInt8_of_ascii h.1, ih h.2]

/-- Counting bytes that are an ASCII character is counting that character. -/
theorem count_encode {d : Char} (hd : d.toNat < 0x80) (s : List Char) :
    (encode s).countP (fun b => Char.ofUInt8 b = d) = s.count d := by
  induction s with
  | nil => rfl
  | cons c s ih =>
    rw [encode_cons, List.countP_append, ih, List.count_cons]
    obtain ⟨hascii, hoctets⟩ | ⟨hlong, -⟩ := octets_cases c
    · rw [hoctets, List.countP_singleton, ofUInt8_of_ascii hascii, Nat.add_comm]
      simp
    · have hne : c ≠ d := by
        rintro rfl
        omega
      have hnone : (String.utf8EncodeChar c).countP (fun b => Char.ofUInt8 b = d) = 0 := by
        rw [List.countP_eq_zero]
        intro b hb
        have := (blind_eq hd).octet c b hb
        simpa [hne] using this
      simp [hnone, hne]

/-- A byte that is not the first of its character. -/
def isTail (b : UInt8) : Bool := b &&& 0xC0 == 0x80

theorem isTail_eq (b : UInt8) : isTail b = decide (0x80 ≤ b.toNat ∧ b.toNat < 0xC0) := by
  have hall : ∀ n : Fin 256, isTail (UInt8.ofNat n.val) =
      decide (0x80 ≤ n.val ∧ n.val < 0xC0) := by decide +kernel
  have hb := hall ⟨b.toNat, b.toNat_lt⟩
  rwa [UInt8.ofNat_toNat] at hb

/-- After the first byte of a character, its tail bytes are all that come before the next. -/
theorem isTail_encode (c : Char) (s : List Char) : ∃ lead tail,
    encode (c :: s) = lead :: (tail ++ encode s) ∧
      (tail ++ encode s).takeWhile isTail = tail := by
  have hnext : (encode s).takeWhile isTail = [] := by
    cases s with
    | nil => rfl
    | cons d s =>
      obtain ⟨hascii, hoctets⟩ | ⟨-, lead, tail, hoctets, hlead, -⟩ := octets_cases d
      · rw [encode_cons, hoctets]
        refine List.takeWhile_cons_of_neg ?_
        simp [isTail_eq]
        omega
      · rw [encode_cons, hoctets]
        refine List.takeWhile_cons_of_neg ?_
        simp [isTail_eq]
        omega
  obtain ⟨hascii, hoctets⟩ | ⟨-, lead, tail, hoctets, hlead, htail⟩ := octets_cases c
  · exact ⟨_, [], by rw [encode_cons, hoctets]; rfl, hnext⟩
  · refine ⟨lead, tail, by rw [encode_cons, hoctets]; rfl, ?_⟩
    have hall : ∀ b ∈ tail, isTail b = true := fun b hb => by
      rw [isTail_eq]
      exact decide_eq_true (htail b hb)
    rw [List.takeWhile_append_of_pos hall, hnext, List.append_nil]

end ExprMachine.Text.Utf8
