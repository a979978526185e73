import Stencil.Utf8
import Mathlib

/-! What bytes of UTF-8 encode. A character below `0x80` stands for one byte, which occurs in no
other character. -/
namespace Stencil.Utf8

/-- The character in progress will not be an ASCII one. -/
structure Pending.IsWide (p : Pending) : Prop where
  low_ge : 0x80 ≤ p.low
  high_le : p.high ≤ 0xBF
  bits_ge : 2 ≤ p.bits ∨ 2 ≤ p.left ∧ 2 ≤ p.bits*64 + p.low % 64

lemma begin?_eq_inl {b : UInt8} {c : Char} (h : begin? b = some (.inl c)) :
    b.toNat < 0x80 ∧ c = Char.ofNat b.toNat := by
  unfold begin? at h
  dsimp only at h
  split at h
  · rename_i hb
    simp only [Option.some.injEq, Sum.inl.injEq] at h
    exact ⟨hb, h.symm⟩
  · repeat' split at h
    all_goals simp at h

lemma isWide_of_begin? {b : UInt8} {p : Pending} (h : begin? b = some (.inr p)) : p.IsWide := by
  unfold begin? at h
  dsimp only at h
  split at h
  · simp at h
  · repeat' split at h
    all_goals simp at h
    all_goals
      subst h
      simp only [Bool.and_eq_true, decide_eq_true_eq] at *
      constructor <;> dsimp only <;> omega

/-- A continuation byte adds six bits. -/
lemma Pending.IsWide.next {p : Pending} (hp : p.IsWide) {n : ℕ} (hlow : p.low ≤ n)
    (hhigh : n ≤ p.high) :
    if p.left ≤ 1 then 0x80 ≤ p.bits*64 + n % 64
    else IsWide ⟨p.left-1, 0x80, 0xBF, p.bits*64 + n % 64⟩ := by
  obtain ⟨hge, hle, hbits⟩ := hp
  split
  · omega
  · exact ⟨le_rfl, le_rfl, .inl (by dsimp only; omega)⟩

/-- A code point from `0x80` on is no ASCII character; neither is one that does not exist. -/
lemma not_ascii_ofNat {n : ℕ} (hn : 0x80 ≤ n) :
    ¬(0 < (Char.ofNat n).toNat ∧ (Char.ofNat n).toNat < 0x80) := by
  by_cases hvalid : n.isValidChar
  · rw [Char.toNat_ofNat, if_pos hvalid]
    omega
  · rw [Char.toNat_ofNat, if_neg hvalid]
    omega

lemma exists_of_charsFrom_pending {p : Pending} (hp : p.IsWide) {bytes : List UInt8} {c : Char}
    {l : List (Option Char)} (h : charsFrom (some p) bytes = some c :: l) :
    ¬(0 < c.toNat ∧ c.toNat < 0x80) ∧ ∃ read rest, bytes = read ++ rest ∧ charsFrom none rest = l := by
  induction bytes generalizing p with
  | nil => simp [charsFrom] at h
  | cons b rest ih =>
    rw [charsFrom] at h
    split at h
    · rename_i hrange
      simp only [Bool.and_eq_true, decide_eq_true_eq] at hrange
      have hnext := hp.next hrange.1 hrange.2
      dsimp only at h
      split at h
      · rename_i hleft
        rw [if_pos hleft] at hnext
        simp only [List.cons.injEq, Option.some.injEq] at h
        obtain ⟨rfl, hl⟩ := h
        exact ⟨not_ascii_ofNat hnext, [b], rest, rfl, hl⟩
      · rename_i hleft
        rw [if_neg hleft] at hnext
        obtain ⟨hc, read, rest', rfl, hl⟩ := ih hnext h
        exact ⟨hc, b :: read, rest', rfl, hl⟩
    · simp at h

/-- The first character stands for the first bytes; an ASCII character stands for one. -/
lemma exists_of_charsFrom {bytes : List UInt8} {c : Char} {l : List (Option Char)}
    (h : charsFrom none bytes = some c :: l) :
    ∃ read rest, bytes = read ++ rest ∧ charsFrom none rest = l ∧
      (0 < c.toNat ∧ c.toNat < 0x80 → ∃ b, read = [b] ∧ b.toNat = c.toNat) := by
  cases bytes with
  | nil => simp [charsFrom] at h
  | cons b rest =>
    rw [charsFrom] at h
    split at h
    · rename_i d hbegin
      simp only [List.cons.injEq, Option.some.injEq] at h
      obtain ⟨rfl, hl⟩ := h
      obtain ⟨hb, rfl⟩ := begin?_eq_inl hbegin
      refine ⟨[b], rest, rfl, hl, fun _ => ⟨b, rfl, ?_⟩⟩
      rw [Char.toNat_ofNat, if_pos (Or.inl (by omega))]
    · rename_i p hbegin
      obtain ⟨hc, read, rest', rfl, hl⟩ := exists_of_charsFrom_pending (isWide_of_begin? hbegin) h
      exact ⟨b :: read, rest', rfl, hl, fun hascii => absurd hascii hc⟩
    · simp at h

lemma charsFrom_pending_ne_nil (p : Pending) (bytes : List UInt8) :
    charsFrom (some p) bytes ≠ [] := by
  induction bytes generalizing p with
  | nil => simp [charsFrom]
  | cons b rest ih =>
    rw [charsFrom]
    split
    · dsimp only
      split
      · simp
      · exact ih _
    · simp

lemma eq_nil_of_charsFrom {bytes : List UInt8} (h : charsFrom none bytes = []) : bytes = [] := by
  cases bytes with
  | nil => rfl
  | cons b rest =>
    rw [charsFrom] at h
    split at h
    · cases h
    · exact absurd h (charsFrom_pending_ne_nil _ rest)
    · cases h

lemma eq_map_some_of_mapM {l : List (Option Char)} {s : Text} (h : l.mapM id = some s) :
    l = s.map some := by
  induction l generalizing s with
  | nil =>
    obtain rfl : [] = s := by simpa using h
    rfl
  | cons c l ih =>
    rw [List.mapM_cons] at h
    obtain ⟨d, hd, hrest⟩ := Option.bind_eq_some_iff.mp h
    obtain ⟨t, ht, hs⟩ := Option.bind_eq_some_iff.mp hrest
    obtain rfl : c = some d := hd
    obtain rfl : d :: t = s := Option.some.inj hs
    rw [ih ht]
    rfl

lemma chars_of_decode? {bytes : List UInt8} {s : Text} (h : decode? bytes = some s) :
    charsFrom none bytes = s.map some :=
  eq_map_some_of_mapM h

/-- Every ASCII character of a text is one of its bytes. -/
lemma exists_mem_of_decode? {bytes : List UInt8} {s : Text} (h : decode? bytes = some s) {c : Char}
    (hc : c ∈ s) (hascii : 0 < c.toNat ∧ c.toNat < 0x80) : ∃ b ∈ bytes, b.toNat = c.toNat := by
  have hchars := chars_of_decode? h
  clear h
  induction s generalizing bytes with
  | nil => cases hc
  | cons d s ih =>
    obtain ⟨read, rest, rfl, hrest, hread⟩ := exists_of_charsFrom hchars
    rcases List.mem_cons.mp hc with rfl | hc
    · obtain ⟨b, rfl, hb⟩ := hread hascii
      exact ⟨b, by simp, hb⟩
    · obtain ⟨b, hmem, hb⟩ := ih hc hrest
      exact ⟨b, List.mem_append_right read hmem, hb⟩

/-- A text of ASCII characters only is its bytes. -/
lemma map_toNat_of_decode? {bytes : List UInt8} {s : Text} (h : decode? bytes = some s)
    (hascii : ∀ c ∈ s, 0 < c.toNat ∧ c.toNat < 0x80) :
    bytes.map UInt8.toNat = s.map Char.toNat := by
  have hchars := chars_of_decode? h
  clear h
  induction s generalizing bytes with
  | nil => rw [eq_nil_of_charsFrom hchars]; rfl
  | cons c s ih =>
    obtain ⟨read, rest, rfl, hrest, hread⟩ := exists_of_charsFrom hchars
    obtain ⟨b, rfl, hb⟩ := hread (hascii c List.mem_cons_self)
    have hlater := ih (fun d hd => hascii d (List.mem_cons_of_mem c hd)) hrest
    simp [hb, hlater]

lemma encode_cons (c : Char) (s : Text) : encode (c :: s) = String.utf8EncodeChar c ++ encode s :=
  rfl

@[simp] lemma encode_append (s t : Text) : encode (s ++ t) = encode s ++ encode t :=
  List.flatMap_append

@[simp] lemma length_encode (s : Text) : (encode s).length = s.byteSize := by
  induction s with
  | nil => rfl
  | cons c s ih => rw [encode_cons, List.length_append, String.length_utf8EncodeChar, ih]; rfl

lemma encode_injective : Function.Injective encode := by
  intro s t hst
  have hbytes : s.utf8Encode = t.utf8Encode := congrArg List.toByteArray hst
  have hdecode := (List.utf8Decode?_utf8Encode (l := s)).symm.trans
    (hbytes ▸ List.utf8Decode?_utf8Encode (l := t))
  simpa using hdecode

/-- The byte of an ASCII character. -/
def ascii (c : Char) : UInt8 := UInt8.ofNat c.toNat

lemma toNat_ascii {c : Char} (hc : c.toNat < 0x80) : (ascii c).toNat = c.toNat := by
  rw [ascii, UInt8.toNat_ofNat']
  omega

/-- The bytes of a character beyond ASCII are no bytes of ASCII characters. -/
lemma le_of_mem_utf8EncodeChar {a : Char} (ha : 0x80 ≤ a.toNat) {b : UInt8}
    (hb : b ∈ String.utf8EncodeChar a) : 0x80 ≤ b.toNat := by
  have hbyte (n : ℕ) (hn : 0x80 ≤ n ∧ n < 0x100) : 0x80 ≤ (UInt8.ofNat n).toNat := by
    rw [UInt8.toNat_ofNat']
    omega
  have ha' : 0x80 ≤ a.val.toNat := ha
  unfold String.utf8EncodeChar at hb
  dsimp only at hb
  split at hb
  · omega
  · repeat' split at hb
    all_goals
      simp only [List.mem_cons, List.not_mem_nil, or_false] at hb
      rcases hb with rfl | rfl | rfl | rfl <;> exact hbyte _ (by omega)

lemma utf8EncodeChar_of_lt {a : Char} (ha : a.toNat < 0x80) : String.utf8EncodeChar a = [ascii a] := by
  have ha' : a.val.toNat ≤ 127 := Nat.le_of_lt_succ ha
  unfold String.utf8EncodeChar
  rw [if_pos ha']
  rfl

lemma ascii_inj {a c : Char} (ha : a.toNat < 0x80) (hc : c.toNat < 0x80) (h : ascii a = ascii c) :
    a = c := by
  have := congrArg UInt8.toNat h
  rw [toNat_ascii ha, toNat_ascii hc] at this
  exact Char.ext (UInt32.toNat_inj.mp this)

/-- A byte of an ASCII character is all of its character. -/
lemma eq_of_mem_utf8EncodeChar {a c : Char} (hc : c.toNat < 0x80)
    (h : ascii c ∈ String.utf8EncodeChar a) : a = c := by
  by_cases ha : a.toNat < 0x80
  · rw [utf8EncodeChar_of_lt ha, List.mem_singleton] at h
    exact ascii_inj ha hc h.symm
  · have := le_of_mem_utf8EncodeChar (not_lt.mp ha) h
    rw [toNat_ascii hc] at this
    omega

/-- The bytes of an ASCII character stand where the character stands. -/
lemma getElem?_encode_ascii {s : Text} {i : ℕ} {c : Char} (hc : c.toNat < 0x80) :
    (encode s)[i]? = some (ascii c) ↔ ∃ before after, s = before ++ c :: after ∧
      before.byteSize = i := by
  constructor
  · intro h
    induction s generalizing i with
    | nil => simp at h
    | cons a s ih =>
      rw [encode_cons] at h
      by_cases hi : i < a.utf8Size
      · rw [List.getElem?_append_left (by rwa [String.length_utf8EncodeChar])] at h
        obtain rfl := eq_of_mem_utf8EncodeChar hc (List.mem_of_getElem? h)
        obtain ⟨hlt, -⟩ := List.getElem?_eq_some_iff.mp h
        rw [utf8EncodeChar_of_lt hc, List.length_singleton] at hlt
        exact ⟨[], s, rfl, by rw [Text.byteSize_nil]; omega⟩
      · rw [List.getElem?_append_right (by rw [String.length_utf8EncodeChar]; omega),
          String.length_utf8EncodeChar] at h
        obtain ⟨before, after, rfl, hbefore⟩ := ih h
        exact ⟨a :: before, after, rfl, by rw [Text.byteSize_cons]; omega⟩
  · rintro ⟨before, after, rfl, rfl⟩
    rw [encode_append, encode_cons, utf8EncodeChar_of_lt hc, ← length_encode]
    simp

lemma count_encode {c : Char} (hc : c.toNat < 0x80) (s : Text) :
    (encode s).count (ascii c) = s.count c := by
  induction s with
  | nil => rfl
  | cons a s ih =>
    rw [encode_cons, List.count_append, ih, List.count_cons, Nat.add_comm]
    congr 1
    by_cases ha : a = c
    · subst ha
      simp [utf8EncodeChar_of_lt hc]
    · rw [List.count_eq_zero.mpr fun hmem => ha (eq_of_mem_utf8EncodeChar hc hmem)]
      simp [ha]

@[simp] lemma take_encode (s t : Text) : (encode (s ++ t)).take s.byteSize = encode s := by
  rw [encode_append, ← length_encode, List.take_left]

end Stencil.Utf8
