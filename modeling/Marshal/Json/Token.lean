import Marshal.Json.Basic
import Marshal.Text.Quoted

/-!
# Tokens of JSON

The words of a document: brackets, commas, colons, literals, numbers and
strings, with blanks between them as one likes. `Json.lex` cuts a text into
them, and refuses a text with anything else in it, such as a number with
leading zeros or a bare word.
-/

namespace Marshal.Json

/-- A word of a document. -/
inductive Token
  | openBracket
  | closeBracket
  | openBrace
  | closeBrace
  | comma
  | colon
  | null
  | bool (b : Bool)
  | number (n : Number)
  /-- A string, with its text if it has one. -/
  | string (text : Option String)

/-- The digits at the start of a text, and what follows them. -/
def spanDigits : List Char → List Char × List Char
  | [] => ([], [])
  | c :: cs =>
    if c.isDigit then let (digits, rest) := spanDigits cs; (c :: digits, rest)
    else ([], c :: cs)

theorem length_spanDigits (cs : List Char) :
    (spanDigits cs).1.length + (spanDigits cs).2.length = cs.length := by
  induction cs with
  | nil => rfl
  | cons c cs ih =>
    unfold spanDigits
    split
    · simp only [List.length_cons]; omega
    · simp

/-- The number that digits spell. -/
def ofDigits (digits : List Char) : Nat :=
  digits.foldl (fun n c => 10 * n + (c.toNat - '0'.toNat)) 0

/-- The exponent at the start of a text, if there is one, and what follows it.
    An exponent without digits is an error. -/
def spanExponent : List Char → Option (List Char × List Char)
  | [] => some ([], [])
  | e :: cs =>
    if e = 'e' || e = 'E' then
      let (sign, cs) := match cs with
        | '+' :: rest => (['+'], rest)
        | '-' :: rest => (['-'], rest)
        | rest => ([], rest)
      match spanDigits cs with
      | ([], _) => none
      | (digits, rest) => some (e :: (sign ++ digits), rest)
    else some ([], e :: cs)

theorem length_le_of_spanExponent {cs exponent rest : List Char}
    (h : spanExponent cs = some (exponent, rest)) : rest.length ≤ cs.length := by
  unfold spanExponent at h
  split at h
  · simp_all
  · rename_i e cs
    split at h
    · split at h
      rename_i sign tail hsign
      have htail : tail.length ≤ cs.length := by
        split at hsign <;> simp_all
      have := length_spanDigits tail
      split at h <;> simp_all
      omega
    · simp_all

/-- The fraction at the start of a text, if there is one, and what follows it.
    A point without digits after it is an error. -/
def spanFraction : List Char → Option (List Char × List Char)
  | '.' :: cs =>
    match spanDigits cs with
    | ([], _) => none
    | (digits, rest) => some ('.' :: digits, rest)
  | cs => some ([], cs)

theorem length_le_of_spanFraction {cs fraction rest : List Char}
    (h : spanFraction cs = some (fraction, rest)) : rest.length ≤ cs.length := by
  unfold spanFraction at h
  split at h
  · rename_i cs
    have := length_spanDigits cs
    split at h <;> simp_all
    omega
  · simp_all

/-- The number at the start of a text, after its minus sign if it has one, and
    what follows it. Only the number zero starts with the digit zero. -/
def spanNumber (negative : Bool) (cs : List Char) : Option (Number × List Char) := do
  let (digits, rest) := spanDigits cs
  match digits with
  | [] => none
  | '0' :: _ :: _ => none
  | _ =>
    let (fraction, rest) ← spanFraction rest
    let (exponent, rest) ← spanExponent rest
    if fraction.isEmpty && exponent.isEmpty then
      return (.integer negative (ofDigits digits), rest)
    else
      let sign := if negative then ['-'] else []
      return (.decimal (String.ofList (sign ++ digits ++ fraction ++ exponent)), rest)

/-- A number takes at least one digit from the text. -/
theorem length_lt_of_spanNumber {negative : Bool} {cs rest : List Char} {n : Number}
    (h : spanNumber negative cs = some (n, rest)) : rest.length < cs.length := by
  have hspan := length_spanDigits cs
  simp only [spanNumber] at h
  split at h
  · simp at h
  · simp at h
  · rename_i hdigits _
    have : 0 < (spanDigits cs).1.length := List.length_pos_iff.2 hdigits
    simp only [Option.bind_eq_bind, Option.bind_eq_some_iff] at h
    obtain ⟨⟨fraction, r₁⟩, h₁, ⟨exponent, r₂⟩, h₂, h⟩ := h
    have hr₁ := length_le_of_spanFraction h₁
    have hr₂ : r₂.length ≤ r₁.length := length_le_of_spanExponent h₂
    split at h <;> simp only [Option.pure_def, Option.some.injEq, Prod.mk.injEq] at h <;>
      obtain ⟨-, rfl⟩ := h <;> omega

/-- The blanks that may stand between tokens. -/
def isBlank (c : Char) : Bool := c = ' ' || c = '\n' || c = '\t' || c = '\r'

/-- The token at the start of a text that starts with no blank, and what follows it. -/
def nextToken : List Char → Option (Token × List Char)
  | '[' :: rest => some (.openBracket, rest)
  | ']' :: rest => some (.closeBracket, rest)
  | '\x7b' :: rest => some (.openBrace, rest)
  | '\x7d' :: rest => some (.closeBrace, rest)
  | ',' :: rest => some (.comma, rest)
  | ':' :: rest => some (.colon, rest)
  | 'n' :: 'u' :: 'l' :: 'l' :: rest => some (.null, rest)
  | 't' :: 'r' :: 'u' :: 'e' :: rest => some (.bool true, rest)
  | 'f' :: 'a' :: 'l' :: 's' :: 'e' :: rest => some (.bool false, rest)
  | '"' :: rest => do
    let (pieces, rest) ← Text.Quoted.scan rest
    return (.string ((Text.Quoted.text? pieces).map String.ofList), rest)
  | '-' :: rest => do
    let (n, rest) ← spanNumber true rest
    return (.number n, rest)
  | cs => do
    let (n, rest) ← spanNumber false cs
    return (.number n, rest)

/-- A token takes at least one character from the text. -/
theorem length_lt_of_nextToken {cs rest : List Char} {t : Token}
    (h : nextToken cs = some (t, rest)) : rest.length < cs.length := by
  unfold nextToken at h
  split at h
  case h_10 tail =>
    simp only [Option.bind_eq_bind, Option.bind_eq_some_iff, Option.pure_def, Option.some.injEq,
      Prod.mk.injEq] at h
    obtain ⟨⟨pieces, r⟩, hr, -, rfl⟩ := h
    have := Text.Quoted.length_lt_of_scan hr
    simp only [List.length_cons]
    omega
  case h_11 tail =>
    simp only [Option.bind_eq_bind, Option.bind_eq_some_iff, Option.pure_def, Option.some.injEq,
      Prod.mk.injEq] at h
    obtain ⟨⟨n, r⟩, hr, -, rfl⟩ := h
    have := length_lt_of_spanNumber hr
    simp only [List.length_cons]
    omega
  case h_12 =>
    simp only [Option.bind_eq_bind, Option.bind_eq_some_iff, Option.pure_def, Option.some.injEq,
      Prod.mk.injEq] at h
    obtain ⟨⟨n, r⟩, hr, -, rfl⟩ := h
    exact length_lt_of_spanNumber hr
  all_goals
    simp only [Option.some.injEq, Prod.mk.injEq] at h
    obtain ⟨-, rfl⟩ := h
    simp only [List.length_cons]
    omega

/-- The tokens of a text, if it has nothing but tokens and blanks in it. -/
def lex : (cs : List Char) → Option (List Token)
  | [] => some []
  | c :: cs =>
    if isBlank c then lex cs
    else match h : nextToken (c :: cs) with
      | none => none
      | some (t, rest) =>
        have := length_lt_of_nextToken h
        (t :: ·) <$> lex rest
termination_by cs => cs.length
decreasing_by
  · exact Nat.lt_succ_self _
  · exact this

end Marshal.Json
