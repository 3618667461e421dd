import Mathlib.Data.List.Infix
import Mathlib.Data.List.Basic

/-! SQL `LIKE` with an escape character: `%` stands for any text, `_` for any one character,
and letters match without regard to ASCII case. -/
namespace Lib.Like

abbrev Text := List Char

inductive Token where
  | any
  | one
  | char (c : Char)
  deriving DecidableEq

def token (c : Char) : Token :=
  if c = '%' then .any else if c = '_' then .one else .char c

/-- The tokens of a pattern, unless its last character is an escape of nothing. -/
def parse (escape : Char) : Text → Option (List Token)
  | [] => some []
  | [c] => if c = escape then none else some [token c]
  | c :: d :: rest =>
    if c = escape then (parse escape rest).map (.char d :: ·)
    else (parse escape (d :: rest)).map (token c :: ·)

def accepts : List Token → Text → Bool
  | [], text => text.isEmpty
  | .any :: pattern, text => text.tails.any (accepts pattern)
  | .one :: _, [] => false
  | .one :: pattern, _ :: text => accepts pattern text
  | .char _ :: _, [] => false
  | .char c :: pattern, x :: text => c.toLower == x.toLower && accepts pattern text

def like (escape : Char) (pattern text : Text) : Bool :=
  match parse escape pattern with
  | none => false
  | some tokens => accepts tokens text

/-- A text with every character escaped that a pattern gives a meaning. -/
def quote (escape : Char) (text : Text) : Text :=
  text.flatMap fun c => if c = escape ∨ c = '%' ∨ c = '_' then [escape, c] else [c]

theorem parse_cons {escape c : Char} (plain : c ≠ escape) (rest : Text) :
    parse escape (c :: rest) = (parse escape rest).map (token c :: ·) := by
  cases rest with
  | nil => simp [parse, plain]
  | cons d rest => simp [parse, plain]

theorem parse_escaped (escape c : Char) (rest : Text) :
    parse escape (escape :: c :: rest) = (parse escape rest).map (.char c :: ·) := by
  simp [parse]

/-- A quoted text stands for its own characters. -/
theorem parse_quote (escape : Char) (text rest : Text) :
    parse escape (quote escape text ++ rest) =
      (parse escape rest).map (text.map Token.char ++ ·) := by
  induction text with
  | nil => simp [quote]
  | cons c text ih =>
    by_cases special : c = escape ∨ c = '%' ∨ c = '_'
    · have quoted : quote escape (c :: text) ++ rest =
          escape :: c :: (quote escape text ++ rest) := by
        simp [quote, special]
      rw [quoted, parse_escaped, ih, Option.map_map]
      rfl
    · have quoted : quote escape (c :: text) ++ rest = c :: (quote escape text ++ rest) := by
        simp [quote, special]
      obtain ⟨plain, some_text, some_one⟩ := not_or.mp special |>.imp_right not_or.mp
      have own : token c = .char c := by simp [token, some_text, some_one]
      rw [quoted, parse_cons plain, ih, own, Option.map_map]
      rfl

/-- A text with its ASCII letters in one case. -/
def caseless (text : Text) : Text := text.map Char.toLower

@[simp] theorem caseless_append (s t : Text) : caseless (s ++ t) = caseless s ++ caseless t :=
  List.map_append

/-- A character that is no letter has no other case. -/
theorem toLower_eq_iff {c d : Char} (plain : d.val.toNat < 65 ∨ 122 < d.val.toNat) :
    c.toLower = d ↔ c = d := by
  have upper_bounds (h : 'A'.val ≤ c.val ∧ c.val ≤ 'Z'.val) :
      65 ≤ c.val.toNat ∧ c.val.toNat ≤ 90 := by
    simpa [UInt32.le_iff_toNat_le] using h
  unfold Char.toLower
  split
  next upper =>
    have bounds := upper_bounds upper
    constructor
    · rintro rfl
      have shifted : (c.val + ('a'.val - 'A'.val)).toNat = c.val.toNat + 32 := by
        rw [UInt32.toNat_add]
        have step : ('a'.val - 'A'.val).toNat = 32 := rfl
        omega
      simp only [shifted] at plain
      omega
    · rintro rfl
      omega
  next => rfl

theorem accepts_any {pattern : List Token} {text : Text} :
    accepts (.any :: pattern) text = true ↔ ∃ u v, text = u ++ v ∧ accepts pattern v = true := by
  simp only [accepts, List.any_eq_true, List.mem_tails]
  constructor
  · rintro ⟨v, ⟨u, rfl⟩, accepted⟩
    exact ⟨u, v, rfl, accepted⟩
  · rintro ⟨u, v, rfl, accepted⟩
    exact ⟨v, ⟨u, rfl⟩, accepted⟩

theorem accepts_chars {quoted : Text} {pattern : List Token} {text : Text} :
    accepts (quoted.map Token.char ++ pattern) text = true ↔
      ∃ u v, text = u ++ v ∧ caseless u = caseless quoted ∧ accepts pattern v = true := by
  induction quoted generalizing text with
  | nil => simp [caseless]
  | cons c quoted ih =>
    cases text with
    | nil => simp [accepts, caseless]
    | cons x text =>
      simp only [List.map_cons, List.cons_append, accepts, Bool.and_eq_true, beq_iff_eq, ih]
      constructor
      · rintro ⟨same, u, v, rfl, fold, accepted⟩
        refine ⟨x :: u, v, rfl, ?_, accepted⟩
        simp only [caseless, List.map_cons] at fold ⊢
        rw [same, fold]
      · rintro ⟨u, v, split, fold, accepted⟩
        cases u with
        | nil => simp [caseless] at fold
        | cons y u =>
          obtain ⟨rfl, rfl⟩ := List.cons.inj split
          obtain ⟨same, fold⟩ := List.cons.inj fold
          exact ⟨same.symm, u, v, rfl, fold, accepted⟩

/-- `quoted` asks for the text itself. -/
theorem like_quote (escape : Char) {quoted text : Text} :
    like escape (quote escape quoted) text = true ↔ caseless text = caseless quoted := by
  have parsed : parse escape (quote escape quoted) = some (quoted.map Token.char ++ []) := by
    have whole := parse_quote escape quoted []
    simpa [parse] using whole
  simp only [like, parsed, accepts_chars]
  constructor
  · rintro ⟨u, v, rfl, fold, ended⟩
    obtain rfl : v = [] := by simpa [accepts] using ended
    rwa [List.append_nil]
  · intro fold
    exact ⟨text, [], by simp, fold, rfl⟩

/-- `quoted%` asks for a beginning. -/
theorem like_beginning (escape : Char) (some_escape : escape ≠ '%') {quoted text : Text} :
    like escape (quote escape quoted ++ ['%']) text = true ↔
      ∃ u v, text = u ++ v ∧ caseless u = caseless quoted := by
  have rest : parse escape ['%'] = some [.any] := by simp [parse, some_escape.symm, token]
  simp only [like, parse_quote, rest, Option.map_some, accepts_chars, accepts_any]
  constructor
  · rintro ⟨u, v, split, fold, -⟩
    exact ⟨u, v, split, fold⟩
  · rintro ⟨u, v, split, fold⟩
    exact ⟨u, v, split, fold, v, [], by simp, rfl⟩

/-- `quoted%c%` asks for a beginning and a character behind it. -/
theorem like_beginning_then (escape c : Char) (some_escape : escape ≠ '%') (plain : c ≠ escape)
    (own : token c = .char c) {quoted text : Text} :
    like escape (quote escape quoted ++ ['%', c, '%']) text = true ↔
      ∃ u v x, text = u ++ v ∧ caseless u = caseless quoted ∧ x ∈ v ∧ x.toLower = c.toLower := by
  have rest : parse escape ['%', c, '%'] = some [.any, .char c, .any] := by
    simp [parse, some_escape.symm, plain, own]
    simp [token]
  simp only [like, parse_quote, rest, Option.map_some, accepts_chars, accepts_any]
  constructor
  · rintro ⟨u, v, split, fold, before, after, rfl, accepted⟩
    cases after with
    | nil => simp [accepts] at accepted
    | cons x after =>
      simp only [accepts, Bool.and_eq_true, beq_iff_eq] at accepted
      exact ⟨u, before ++ x :: after, x, split, fold, by simp, accepted.1.symm⟩
  · rintro ⟨u, v, x, split, fold, member, same⟩
    obtain ⟨before, after, rfl⟩ := List.append_of_mem member
    have tail : accepts [.any] after = true := accepts_any.mpr ⟨after, [], by simp, rfl⟩
    refine ⟨u, _, split, fold, before, x :: after, rfl, ?_⟩
    rw [accepts, tail, same]
    simp

end Lib.Like
