import Mathlib.Data.List.Infix
import Mathlib.Data.List.Basic

/-! Percent-encoding of text over UTF-8. Encoding leaves `%` alone, so decoding what was
encoded gives the bytes of the text where it holds no escape of its own, and fewer bytes
where it does. -/
namespace Lib.Percent

abbrev Text := List Char

def utf8 (s : Text) : List UInt8 := s.flatMap String.utf8EncodeChar

/-- The text these bytes encode, if they are valid. -/
def fromUtf8 (bytes : List UInt8) : Option Text :=
  bytes.toByteArray.utf8Decode?.map Array.toList

/-- The length of a text in bytes. -/
def size (s : Text) : Nat := (utf8 s).length

@[simp] theorem utf8_nil : utf8 [] = [] := rfl
@[simp] theorem utf8_cons (c : Char) (s : Text) :
    utf8 (c :: s) = String.utf8EncodeChar c ++ utf8 s :=
  rfl
@[simp] theorem utf8_append (s t : Text) : utf8 (s ++ t) = utf8 s ++ utf8 t := List.flatMap_append

@[simp] theorem size_nil : size [] = 0 := rfl
@[simp] theorem size_cons (c : Char) (s : Text) : size (c :: s) = c.utf8Size + size s := by
  simp [size]
@[simp] theorem size_append (s t : Text) : size (s ++ t) = size s + size t := by simp [size]

@[simp] theorem fromUtf8_utf8 (s : Text) : fromUtf8 (utf8 s) = some s := by
  change s.utf8Encode.utf8Decode?.map Array.toList = some s
  simp [List.utf8Decode?_utf8Encode]

theorem utf8_of_fromUtf8 {bytes : List UInt8} {s : Text} (decoded : fromUtf8 bytes = some s) :
    utf8 s = bytes := by
  obtain ⟨chars, found, rfl⟩ := Option.map_eq_some_iff.mp decoded
  have back : chars.toList.utf8Encode = bytes.toByteArray := by
    have valid : bytes.toByteArray.utf8Decode?.isSome := by simp [found]
    have whole := ByteArray.utf8Encode_get_utf8Decode? (b := bytes.toByteArray) (h := valid)
    simpa [found] using whole
  exact List.toByteArray_inj.mp back

theorem utf8_injective {s t : Text} (same : utf8 s = utf8 t) : s = t := by
  have decoded := congrArg fromUtf8 same
  simpa using decoded

/-- Bytes that begin the encoding of a text and are an encoding themselves end between two of
its characters. -/
theorem prefix_of_utf8 {s t : Text} {bytes : List UInt8} (begins : utf8 s ++ bytes = utf8 t) :
    ∃ rest, t = s ++ rest ∧ utf8 rest = bytes := by
  have encoded : s.utf8Encode ++ bytes.toByteArray = t.utf8Encode := by
    change (utf8 s).toByteArray ++ bytes.toByteArray = (utf8 t).toByteArray
    rw [← List.toByteArray_append, begins]
  obtain ⟨rest, rfl⟩ := List.isPrefix_of_utf8Encode_append_eq_utf8Encode _ encoded
  rw [utf8_append] at begins
  exact ⟨rest, rfl, (List.append_cancel_left begins).symm⟩

def hexDigit (n : Nat) : Char := if n < 10 then Char.ofNat (48 + n) else Char.ofNat (55 + n)

def hexValue (c : Char) : Option Nat :=
  if '0' ≤ c ∧ c ≤ '9' then some (c.toNat - 48)
  else if 'A' ≤ c ∧ c ≤ 'F' then some (c.toNat - 55)
  else if 'a' ≤ c ∧ c ≤ 'f' then some (c.toNat - 87)
  else none

def escape (b : UInt8) : Text := ['%', hexDigit (b.toNat / 16), hexDigit (b.toNat % 16)]

def encodeChar (encoded : Char → Bool) (c : Char) : Text :=
  if encoded c then (String.utf8EncodeChar c).flatMap escape else [c]

def encode (encoded : Char → Bool) (s : Text) : Text := s.flatMap (encodeChar encoded)

/-- The byte two hex digits stand for. -/
def hexPair : Char → Char → Option UInt8
  | hi, lo =>
    match hexValue hi, hexValue lo with
    | some h, some l => some (UInt8.ofNat (16 * h + l))
    | _, _ => none

/-- The bytes; a `%` without two hex digits stands for itself. -/
def decode : Text → List UInt8
  | [] => []
  | '%' :: hi :: lo :: rest =>
    match hexPair hi lo with
    | some b => b :: decode rest
    | none => String.utf8EncodeChar '%' ++ decode (hi :: lo :: rest)
  | c :: rest => String.utf8EncodeChar c ++ decode rest

def startsEscape : Text → Bool
  | '%' :: hi :: lo :: _ => (hexPair hi lo).isSome
  | _ => false

/-- The text begins with an escape. -/
abbrev Escaped (s : Text) : Prop := startsEscape s = true

/-- A `%` followed by two hex digits stands somewhere in the text. -/
def HasEscape (s : Text) : Prop := ∃ tail, tail <:+ s ∧ Escaped tail

instance (s : Text) : Decidable (HasEscape s) :=
  decidable_of_iff (∃ tail ∈ s.tails, Escaped tail) (by simp [HasEscape, List.mem_tails])

section Decode

theorem decode_escaped {hi lo : Char} {b : UInt8} (pair : hexPair hi lo = some b) (rest : Text) :
    decode ('%' :: hi :: lo :: rest) = b :: decode rest := by
  simp only [decode, pair]

theorem decode_plain {c : Char} {rest : Text} (plain : ¬Escaped (c :: rest)) :
    decode (c :: rest) = String.utf8EncodeChar c ++ decode rest := by
  conv_lhs => unfold decode
  split
  next => contradiction
  next hi lo tail same =>
    obtain ⟨rfl, rfl⟩ := List.cons.inj same
    have bad : hexPair hi lo = none := by simpa [Escaped, startsEscape] using plain
    simp only [bad]
  next same =>
    obtain ⟨rfl, rfl⟩ := List.cons.inj same
    rfl

theorem escaped_cons {c : Char} {rest : Text} :
    Escaped (c :: rest) ↔
      c = '%' ∧ ∃ hi lo tail b, rest = hi :: lo :: tail ∧ hexPair hi lo = some b := by
  constructor
  · intro escaped
    unfold Escaped startsEscape at escaped
    split at escaped
    next hi lo tail same =>
      obtain ⟨rfl, rfl⟩ := List.cons.inj same
      obtain ⟨b, pair⟩ := Option.isSome_iff_exists.mp escaped
      exact ⟨rfl, hi, lo, tail, b, rfl, pair⟩
    next => contradiction
  · rintro ⟨rfl, hi, lo, tail, b, rfl, pair⟩
    simp [Escaped, startsEscape, pair]

@[simp] theorem hasEscape_nil : ¬HasEscape [] := by
  rintro ⟨tail, suffix, escaped⟩
  rw [List.suffix_nil.mp suffix] at escaped
  contradiction

theorem hasEscape_cons {c : Char} {rest : Text} :
    HasEscape (c :: rest) ↔ Escaped (c :: rest) ∨ HasEscape rest := by
  unfold HasEscape
  constructor
  · rintro ⟨tail, suffix, escaped⟩
    rcases List.suffix_cons_iff.mp suffix with rfl | inside
    · exact Or.inl escaped
    · exact Or.inr ⟨tail, inside, escaped⟩
  · rintro (escaped | ⟨tail, suffix, escaped⟩)
    · exact ⟨_, List.suffix_refl _, escaped⟩
    · exact ⟨tail, suffix.trans (List.suffix_cons _ _), escaped⟩

theorem not_hasEscape {s : Text} (plain : '%' ∉ s) : ¬HasEscape s := by
  rintro ⟨tail, suffix, escaped⟩
  cases tail with
  | nil => contradiction
  | cons c rest =>
    obtain ⟨rfl, -⟩ := escaped_cons.mp escaped
    exact plain (suffix.subset List.mem_cons_self)

/-- A text without escapes stands for itself. -/
theorem decode_eq {s : Text} (clean : ¬HasEscape s) : decode s = utf8 s := by
  induction s with
  | nil => rfl
  | cons c s ih =>
    rw [hasEscape_cons, not_or] at clean
    rw [decode_plain clean.1, ih clean.2, utf8_cons]

theorem decode_length_le (s : Text) : (decode s).length ≤ size s := by
  fun_induction decode s with
  | case1 => simp
  | case2 hi lo rest b pair ih =>
    simp only [List.length_cons, size_cons]
    have := Char.utf8Size_pos hi
    omega
  | case3 hi lo rest bad ih =>
    simp only [List.length_append, String.length_utf8EncodeChar]
    rw [size_cons]
    omega
  | case4 c rest _ ih =>
    simp only [List.length_append, String.length_utf8EncodeChar, size_cons]
    omega

/-- An escape is three bytes for one. -/
theorem decode_length_lt {s : Text} (escaped : HasEscape s) : (decode s).length < size s := by
  induction s with
  | nil => exact absurd escaped hasEscape_nil
  | cons c s ih =>
    by_cases here : Escaped (c :: s)
    · obtain ⟨rfl, hi, lo, tail, b, rfl, pair⟩ := escaped_cons.mp here
      have rest := decode_length_le tail
      have := Char.utf8Size_pos hi
      have := Char.utf8Size_pos lo
      rw [decode_escaped pair]
      simp only [List.length_cons, size_cons]
      omega
    · have rest := ih ((hasEscape_cons.mp escaped).resolve_left here)
      rw [decode_plain here]
      simp only [List.length_append, String.length_utf8EncodeChar, size_cons]
      omega

theorem hexValue_hexDigit : ∀ n : Fin 16, hexValue (hexDigit n) = some n.val := by decide

theorem decode_escape (b : UInt8) (rest : Text) : decode (escape b ++ rest) = b :: decode rest := by
  have bound := b.toNat_lt
  have hi := hexValue_hexDigit ⟨b.toNat / 16, by omega⟩
  have lo := hexValue_hexDigit ⟨b.toNat % 16, by omega⟩
  have whole : 16 * (b.toNat / 16) + b.toNat % 16 = b.toNat := by omega
  refine decode_escaped ?_ rest
  simp only [hexPair, hi, lo, whole, UInt8.ofNat_toNat]

theorem decode_escapes (bytes : List UInt8) (rest : Text) :
    decode (bytes.flatMap escape ++ rest) = bytes ++ decode rest := by
  induction bytes with
  | nil => rfl
  | cons b bytes ih =>
    rw [List.flatMap_cons, List.append_assoc, decode_escape, ih]
    rfl

/-- What has a meaning in an escape is left alone. -/
structure Sparing (encoded : Char → Bool) : Prop where
  percent : encoded '%' = false
  digits : ∀ c, (hexValue c).isSome → encoded c = false

variable {encoded : Char → Bool}

@[simp] theorem encode_nil : encode encoded [] = [] := rfl
@[simp] theorem encode_cons (c : Char) (s : Text) :
    encode encoded (c :: s) = encodeChar encoded c ++ encode encoded s := rfl
@[simp] theorem encode_append (s t : Text) :
    encode encoded (s ++ t) = encode encoded s ++ encode encoded t := List.flatMap_append

theorem encodeChar_plain {c : Char} (plain : encoded c = false) : encodeChar encoded c = [c] := by
  simp [encodeChar, plain]

/-- A hex digit in front was there before the encoding. -/
theorem digit_of_encode {c : Char} {s tail : Text} (digit : (hexValue c).isSome)
    (encodes : encode encoded s = c :: tail) :
    ∃ rest, s = c :: rest ∧ encode encoded rest = tail := by
  cases s with
  | nil => contradiction
  | cons x s =>
    rw [encode_cons] at encodes
    cases escapes : encoded x with
    | true =>
      have nonempty : String.utf8EncodeChar x ≠ [] := by simp
      obtain ⟨b, bytes, split⟩ := List.exists_cons_of_ne_nil nonempty
      simp only [encodeChar, escapes, if_pos, split, List.flatMap_cons, escape, List.cons_append,
        List.cons.injEq] at encodes
      rw [← encodes.1] at digit
      contradiction
    | false =>
      rw [encodeChar_plain escapes] at encodes
      obtain ⟨rfl, same⟩ := List.cons.inj encodes
      exact ⟨s, rfl, same⟩

theorem digits_of_hexPair {hi lo : Char} {b : UInt8} (pair : hexPair hi lo = some b) :
    (hexValue hi).isSome ∧ (hexValue lo).isSome := by
  unfold hexPair at pair
  cases first : hexValue hi with
  | none => simp [first] at pair
  | some h =>
    cases second : hexValue lo with
    | none => simp [first, second] at pair
    | some l => exact ⟨rfl, rfl⟩

/-- Encoding what follows a character makes no escape of it, and breaks none. -/
theorem escaped_encode (sparing : Sparing encoded) {c : Char} {s : Text} :
    Escaped (c :: encode encoded s) ↔ Escaped (c :: s) := by
  rw [escaped_cons, escaped_cons]
  constructor
  · rintro ⟨percent, hi, lo, tail, b, same, pair⟩
    obtain ⟨first, second⟩ := digits_of_hexPair pair
    obtain ⟨after, rfl, once⟩ := digit_of_encode first same
    obtain ⟨rest, rfl, -⟩ := digit_of_encode second once
    exact ⟨percent, hi, lo, rest, b, rfl, pair⟩
  · rintro ⟨percent, hi, lo, tail, b, rfl, pair⟩
    obtain ⟨first, second⟩ := digits_of_hexPair pair
    refine ⟨percent, hi, lo, encode encoded tail, b, ?_, pair⟩
    rw [encode_cons, encode_cons, encodeChar_plain (sparing.digits hi first),
      encodeChar_plain (sparing.digits lo second)]
    rfl

/-- Encoding leaves what a text decodes to as it is. -/
theorem decode_encode (sparing : Sparing encoded) (s : Text) :
    decode (encode encoded s) = decode s := by
  fun_induction decode s with
  | case1 => rfl
  | case2 hi lo rest b pair ih =>
    obtain ⟨first, second⟩ := digits_of_hexPair pair
    simp only [encode_cons, encodeChar_plain sparing.percent,
      encodeChar_plain (sparing.digits hi first), encodeChar_plain (sparing.digits lo second),
      List.cons_append, List.nil_append]
    rw [decode_escaped pair, ih]
  | case3 hi lo rest bad ih =>
    have plain : ¬Escaped ('%' :: hi :: lo :: rest) := by simp [Escaped, startsEscape, bad]
    rw [encode_cons, encodeChar_plain sparing.percent, List.singleton_append,
      decode_plain (mt (escaped_encode sparing).mp plain), ih]
  | case4 c rest none ih =>
    rw [encode_cons]
    cases escapes : encoded c with
    | true =>
      simp only [encodeChar, escapes, if_pos]
      rw [decode_escapes, ih]
    | false =>
      have plain : ¬Escaped (c :: rest) := by
        rw [escaped_cons]
        rintro ⟨rfl, hi, lo, tail, b, rfl, -⟩
        exact none hi lo tail rfl rfl
      rw [encodeChar_plain escapes, List.singleton_append,
        decode_plain (mt (escaped_encode sparing).mp plain), ih]

/-- No escape reaches over a character that is no hex digit. -/
theorem escaped_append {c d : Char} (separates : hexValue d = none) (s t : Text) :
    Escaped (c :: (s ++ d :: t)) ↔ Escaped (c :: s) := by
  rw [escaped_cons, escaped_cons]
  constructor
  · rintro ⟨percent, hi, lo, tail, b, same, pair⟩
    obtain ⟨first, second⟩ := digits_of_hexPair pair
    rcases s with _ | ⟨x, _ | ⟨y, s⟩⟩
    · obtain ⟨rfl, -⟩ := List.cons.inj same
      simp [separates] at first
    · simp only [List.cons_append, List.nil_append, List.cons.injEq] at same
      simp [← same.2.1, separates] at second
    · simp only [List.cons_append, List.cons.injEq] at same
      rw [← same.1, ← same.2.1] at pair
      exact ⟨percent, x, y, s, b, rfl, pair⟩
  · rintro ⟨percent, hi, lo, tail, b, rfl, pair⟩
    exact ⟨percent, hi, lo, _, b, rfl, pair⟩

theorem decode_append {d : Char} (separates : hexValue d = none) (plain : d ≠ '%') (s t : Text) :
    decode (s ++ d :: t) = decode s ++ String.utf8EncodeChar d ++ decode t := by
  fun_induction decode s with
  | case1 =>
    refine decode_plain fun escaped => plain ?_
    exact (escaped_cons.mp escaped).1
  | case2 hi lo rest b pair ih =>
    simp only [List.cons_append]
    rw [decode_escaped pair, ih]
  | case3 hi lo rest bad ih =>
    have here : ¬Escaped ('%' :: hi :: lo :: rest) := by simp [Escaped, startsEscape, bad]
    have there := mt (escaped_append separates (hi :: lo :: rest) t).mp here
    simp only [List.cons_append] at there ih ⊢
    rw [decode_plain there, ih]
    simp
  | case4 c rest none ih =>
    have here : ¬Escaped (c :: rest) := by
      rw [escaped_cons]
      rintro ⟨rfl, hi, lo, tail, b, rfl, -⟩
      exact none hi lo tail rfl rfl
    rw [List.cons_append, decode_plain (mt (escaped_append separates rest t).mp here), ih]
    simp

theorem hasEscape_append {d : Char} (separates : hexValue d = none) (plain : d ≠ '%') (s t : Text) :
    HasEscape (s ++ d :: t) ↔ HasEscape s ∨ HasEscape t := by
  induction s with
  | nil =>
    have unescaped : ¬Escaped (d :: t) := fun escaped => plain (escaped_cons.mp escaped).1
    simp [hasEscape_cons, unescaped]
  | cons c s ih =>
    rw [List.cons_append, hasEscape_cons, hasEscape_cons, escaped_append separates, ih, or_assoc]

end Decode

end Lib.Percent
