import Marshal.Text.Hex

/-!
# Quoted text

A text is quoted by putting it between double quotes. A quote and a backslash
inside it are escaped by a backslash, and so are the control characters below
`U+0020`: the common ones by a letter, the others by `\u` and four digits. All
other characters stand for themselves.

* `quote` writes a text in this form; error messages use it for every name;
* `Quoted.scan` reads the rest of a literal after its opening quote, as a list
  of characters and of code units spelt by `\u`, and takes every escape, also
  those that `quote` does not write;
* `Quoted.text?` is the text of these: a high surrogate and the low one after
  it spell one character together, and a surrogate without its partner denotes
  none, so that a literal can be well formed and yet have no text.
-/

namespace Marshal.Text

namespace Quoted

/-- How a character is written between quotes. -/
def escape (c : Char) : List Char :=
  if c = '"' then ['\\', '"']
  else if c = '\\' then ['\\', '\\']
  else if c = '\x08' then ['\\', 'b']
  else if c = '\t' then ['\\', 't']
  else if c = '\n' then ['\\', 'n']
  else if c = '\x0c' then ['\\', 'f']
  else if c = '\r' then ['\\', 'r']
  else if c.toNat < 0x20 then '\\' :: 'u' :: '0' :: '0' :: hexByte c.toNat.toUInt8
  else [c]

/-- The literal of a text. -/
def encode (s : List Char) : List Char :=
  '"' :: (s.flatMap escape ++ ['"'])

/-- The character that a letter after a backslash stands for. -/
def unescape? (c : Char) : Option Char :=
  if c = '"' then some '"'
  else if c = '\\' then some '\\'
  else if c = '/' then some '/'
  else if c = 'b' then some '\x08'
  else if c = 'f' then some '\x0c'
  else if c = 'n' then some '\n'
  else if c = 'r' then some '\r'
  else if c = 't' then some '\t'
  else none

/-- What a literal is made of. -/
inductive Piece
  /-- A character, standing for itself or escaped by a letter. -/
  | char (c : Char)
  /-- A 16-bit code unit, spelt by its digits. -/
  | unit (n : Nat)

/-- Reads a literal whose opening quote has been read, up to its closing quote:
    its pieces, and what follows it. -/
def scan : List Char → Option (List Piece × List Char)
  | [] => none
  | '"' :: rest => some ([], rest)
  | '\\' :: 'u' :: a :: b :: c :: d :: rest => do
    let n ← hexValue4? a b c d
    let (pieces, rest) ← scan rest
    return (.unit n :: pieces, rest)
  | '\\' :: c :: rest => do
    let c ← unescape? c
    let (pieces, rest) ← scan rest
    return (.char c :: pieces, rest)
  | c :: rest =>
    if c.toNat < 0x20 then none
    else do
      let (pieces, rest) ← scan rest
      return (.char c :: pieces, rest)

/-- A literal takes at least its closing quote from the text. -/
theorem length_lt_of_scan {cs rest : List Char} {pieces : List Piece}
    (h : scan cs = some (pieces, rest)) : rest.length < cs.length := by
  fun_induction scan cs generalizing pieces rest with
  | case1 => simp at h
  | case2 tail => simp_all
  | case3 a b c d tail ih =>
    simp only [Option.bind_eq_bind, Option.bind_eq_some_iff, Option.pure_def, Option.some.injEq,
      Prod.mk.injEq] at h
    obtain ⟨_, _, ⟨_, r⟩, hs, -, rfl⟩ := h
    have := ih hs
    simp only [List.length_cons]
    omega
  | case4 c tail _ ih =>
    simp only [Option.bind_eq_bind, Option.bind_eq_some_iff, Option.pure_def, Option.some.injEq,
      Prod.mk.injEq] at h
    obtain ⟨_, _, ⟨_, r⟩, hs, -, rfl⟩ := h
    have := ih hs
    simp only [List.length_cons]
    omega
  | case5 => simp at h
  | case6 c tail _ _ _ _ ih =>
    simp only [Option.bind_eq_bind, Option.bind_eq_some_iff, Option.pure_def, Option.some.injEq,
      Prod.mk.injEq] at h
    obtain ⟨⟨_, r⟩, hs, -, rfl⟩ := h
    have := ih hs
    simp only [List.length_cons]
    omega

/-- A code unit that only stands for a character together with a low one after it. -/
def isHighSurrogate (n : Nat) : Bool := 0xD800 ≤ n && n < 0xDC00

/-- A code unit that only stands for a character together with a high one before it. -/
def isLowSurrogate (n : Nat) : Bool := 0xDC00 ≤ n && n < 0xE000

/-- The character that a high and a low surrogate spell together. -/
def pair (high low : Nat) : Char :=
  Char.ofNat (0x10000 + (high - 0xD800) * 0x400 + (low - 0xDC00))

/-- The text that the pieces of a literal spell, if every surrogate is paired. -/
def text? : List Piece → Option (List Char)
  | [] => some []
  | .char c :: rest => (c :: ·) <$> text? rest
  | .unit n :: rest =>
    if isHighSurrogate n then
      match rest with
      | .unit m :: rest => if isLowSurrogate m then (pair n m :: ·) <$> text? rest else none
      | _ => none
    else if isLowSurrogate n then none
    else (Char.ofNat n :: ·) <$> text? rest

end Quoted

/-- A text between double quotes, with the escapes that keep it readable. -/
def quote (s : String) : String := String.ofList (Quoted.encode s.toList)

end Marshal.Text
