import Mathlib.Tactic.SplitIfs
import Marshal.Text.Quoted

/-!
# Literals read back

Every text can be told from its literal, whatever follows the literal: each
character is written as one piece that denotes it (`pieceOf`), and reading a
literal gives the pieces of its characters (`scan_flatMap_escape`), which spell
the text (`text?_pieceOf`). So no literal is the beginning of another one
(`encode_append_inj`).

A literal also shows where it ends to someone who only counts backslashes: a
quote between its first and its last character comes after an odd number of
them, and the last one after an even number (`IsBody`).
-/

namespace Marshal.Text

/-- The digits of a small number after two zeros spell it. -/
theorem hexValue4?_hexDigit :
    ∀ n < 0x20, hexValue4? '0' '0' (hexDigit (n / 16)) (hexDigit (n % 16)) = some n := by
  decide

namespace Quoted

/-- The piece that a character is written as. -/
def pieceOf (c : Char) : Piece :=
  if c.toNat < 0x20 ∧ c ∉ ['\x08', '\t', '\n', '\x0c', '\r'] then .unit c.toNat else .char c

/-- All but quotes, backslashes and control characters stand for themselves. -/
theorem scan_cons_of_plain {c : Char} {rest : List Char} (hquote : c ≠ '"') (hslash : c ≠ '\\')
    (hc : ¬c.toNat < 0x20) :
    scan (c :: rest) = (scan rest).map fun p => (.char c :: p.1, p.2) := by
  rw [scan]
  · rw [if_neg hc]
    cases scan rest <;> rfl
  all_goals simp_all

/-- A control character without a letter of its own is written by its digits. -/
theorem scan_hexByte {c : Char} {rest : List Char} (hc : c.toNat < 0x20) :
    scan ('\\' :: 'u' :: '0' :: '0' :: (hexByte c.toNat.toUInt8 ++ rest))
      = (scan rest).map fun p => (.unit c.toNat :: p.1, p.2) := by
  have hbyte : c.toNat.toUInt8.toNat = c.toNat := Nat.mod_eq_of_lt (by omega)
  rw [hexByte, hbyte]
  simp only [List.cons_append, List.nil_append]
  rw [scan, hexValue4?_hexDigit _ hc]
  cases scan rest <;> rfl

/-- A character with a letter of its own is written by it. -/
theorem scan_letter {letter d : Char} {rest : List Char} (hu : letter ≠ 'u')
    (h : unescape? letter = some d) :
    scan ('\\' :: letter :: rest) = (scan rest).map fun p => (.char d :: p.1, p.2) := by
  rw [scan, h]
  · cases scan rest <;> rfl
  · simp_all

/-- A written character is read as its piece. -/
theorem scan_escape_append (c : Char) (rest : List Char) :
    scan (escape c ++ rest) = (scan rest).map fun p => (pieceOf c :: p.1, p.2) := by
  unfold escape
  split_ifs with h₁ h₂ h₃ h₄ h₅ h₆ h₇ hc
  · subst h₁; exact scan_letter (by decide) rfl
  · subst h₂; exact scan_letter (by decide) rfl
  · subst h₃; exact scan_letter (by decide) rfl
  · subst h₄; exact scan_letter (by decide) rfl
  · subst h₅; exact scan_letter (by decide) rfl
  · subst h₆; exact scan_letter (by decide) rfl
  · subst h₇; exact scan_letter (by decide) rfl
  · have hpiece : pieceOf c = .unit c.toNat := by simp [pieceOf, *]
    rw [hpiece]
    exact scan_hexByte hc
  · have hpiece : pieceOf c = .char c := by simp [pieceOf, hc]
    rw [hpiece]
    exact scan_cons_of_plain h₁ h₂ hc

/-- A literal is read as the pieces of its characters, up to its closing quote. -/
theorem scan_flatMap_escape (s rest : List Char) :
    scan (s.flatMap escape ++ '"' :: rest) = some (s.map pieceOf, rest) := by
  induction s with
  | nil => simp [scan]
  | cons c s ih =>
    rw [List.flatMap_cons, List.append_assoc, scan_escape_append, ih]
    rfl

/-- The pieces of the characters of a text spell the text. -/
theorem text?_pieceOf (s : List Char) : text? (s.map pieceOf) = some s := by
  induction s with
  | nil => rfl
  | cons c s ih =>
    rw [List.map_cons, pieceOf]
    split
    case isTrue h =>
      -- control characters are no surrogates
      have hhigh : isHighSurrogate c.toNat = false := by simp [isHighSurrogate]; omega
      have hlow : isLowSurrogate c.toNat = false := by simp [isLowSurrogate]; omega
      rw [text?.eq_def]
      simp only [hhigh, hlow, ih, Char.ofNat_toNat]
      rfl
    case isFalse h =>
      rw [text?, ih]
      rfl

/-- A literal can be told from what follows it. -/
theorem encode_append_inj {s s' rest rest' : List Char}
    (h : encode s ++ rest = encode s' ++ rest') : s = s' ∧ rest = rest' := by
  have hbody : s.flatMap escape ++ '"' :: rest = s'.flatMap escape ++ '"' :: rest' := by
    simpa [encode] using h
  have hscan := scan_flatMap_escape s rest
  rw [hbody, scan_flatMap_escape, Option.some.injEq, Prod.mk.injEq] at hscan
  obtain ⟨hpieces, rfl⟩ := hscan
  have htext := text?_pieceOf s
  rw [← hpieces, text?_pieceOf] at htext
  exact ⟨(Option.some.inj htext).symm, rfl⟩

/-! ## The form of a literal -/

/-- The number of backslashes that a text ends in. -/
def slashesAtEnd (s : List Char) : Nat := (s.reverse.takeWhile (· = '\\')).length

/-- The character after the text is escaped: the backslashes that the text ends in escape
    each other in pairs, and one is left over. -/
def Escaping (s : List Char) : Prop := slashesAtEnd s % 2 = 1

instance (s : List Char) : Decidable (Escaping s) := inferInstanceAs (Decidable (_ = _))

/-- What stands between the quotes of a literal. -/
structure IsBody (s : List Char) : Prop where
  /-- No control character stands for itself. -/
  visible : ∀ c ∈ s, 0x20 ≤ c.toNat
  /-- A quote inside the literal is escaped. -/
  inside : ∀ before after, s = before ++ '"' :: after → Escaping before
  /-- The closing quote is not. -/
  closed : ¬Escaping s

theorem slashesAtEnd_concat (s : List Char) (c : Char) :
    slashesAtEnd (s ++ [c]) = if c = '\\' then slashesAtEnd s + 1 else 0 := by
  rw [slashesAtEnd, List.reverse_concat, List.takeWhile_cons]
  by_cases hc : c = '\\' <;> simp [hc, slashesAtEnd]

/-- An occurrence in a text with one more character is one in the text, or the last one. -/
theorem concat_eq_append_cons {s before after : List Char} {c d : Char}
    (h : s ++ [c] = before ++ d :: after) :
    (before = s ∧ d = c) ∨ ∃ rest, s = before ++ d :: rest := by
  rcases List.eq_nil_or_concat after with rfl | ⟨rest, e, rfl⟩
  · obtain ⟨rfl, hlast⟩ := List.append_inj' h rfl
    exact .inl ⟨rfl, (List.singleton_inj.1 hlast).symm⟩
  · rw [List.concat_eq_append, ← List.cons_append, ← List.append_assoc] at h
    exact .inr ⟨rest, (List.append_inj' h rfl).1⟩

namespace IsBody

variable {s : List Char} {c : Char}

theorem nil : IsBody [] where
  visible _ h := absurd h List.not_mem_nil
  inside before after h := by simp at h
  closed := by decide

theorem plain (h : IsBody s) (hquote : c ≠ '"') (hslash : c ≠ '\\') (hc : 0x20 ≤ c.toNat) :
    IsBody (s ++ [c]) where
  visible := List.forall_mem_append.2 ⟨h.visible, List.forall_mem_singleton.2 hc⟩
  inside before after hs := by
    rcases concat_eq_append_cons hs with ⟨-, hd⟩ | ⟨rest, hrest⟩
    · exact absurd hd.symm hquote
    · exact h.inside before rest hrest
  closed := by
    rw [Escaping, slashesAtEnd_concat, if_neg hslash]
    decide

/-- After a backslash any visible character may come, also a quote or a backslash. -/
theorem escaped (h : IsBody s) (hc : 0x20 ≤ c.toNat) : IsBody (s ++ ['\\', c]) := by
  have hslash : slashesAtEnd (s ++ ['\\']) = slashesAtEnd s + 1 := by
    rw [slashesAtEnd_concat, if_pos rfl]
  have hclosed := h.closed
  rw [Escaping] at hclosed
  rw [List.append_cons]
  constructor
  · simpa [or_imp, forall_and] using ⟨h.visible, hc⟩
  · intro before after hs
    rcases concat_eq_append_cons hs with ⟨rfl, -⟩ | ⟨rest, hrest⟩
    · -- The quote is the escaped character.
      rw [Escaping, hslash]
      omega
    · rcases concat_eq_append_cons hrest with ⟨-, hd⟩ | ⟨rest', hrest'⟩
      · exact absurd hd (by decide)
      · exact h.inside before rest' hrest'
  · rw [Escaping, slashesAtEnd_concat, hslash]
    split <;> omega

end IsBody

/-- Digits stand for themselves. -/
theorem hexDigit_plain :
    ∀ n < 16, hexDigit n ≠ '"' ∧ hexDigit n ≠ '\\' ∧ 0x20 ≤ (hexDigit n).toNat := by
  decide

/-- A written character may be added. -/
theorem IsBody.escape {s : List Char} (h : IsBody s) (c : Char) : IsBody (s ++ escape c) := by
  unfold Quoted.escape
  split_ifs with h₁ h₂ h₃ h₄ h₅ h₆ h₇ hc
  iterate 7 exact h.escaped (by decide)
  · have hbyte : c.toNat.toUInt8.toNat = c.toNat := Nat.mod_eq_of_lt (by omega)
    obtain ⟨hq, hs, hv⟩ := hexDigit_plain (c.toNat / 16) (by omega)
    obtain ⟨hq', hs', hv'⟩ := hexDigit_plain (c.toNat % 16) (by omega)
    have hu : IsBody (s ++ ['\\', 'u']) := h.escaped (by decide)
    have hzeros := (hu.plain (c := '0') (by decide) (by decide) (by decide)).plain (c := '0')
      (by decide) (by decide) (by decide)
    have hdigits := (hzeros.plain hq hs hv).plain hq' hs' hv'
    rw [hexByte, hbyte]
    simpa using hdigits
  · exact h.plain h₁ h₂ (by omega)

theorem isBody_flatMap_escape (s : List Char) : IsBody (s.flatMap Quoted.escape) := by
  -- What has been written so far is added to, character by character.
  suffices hadd : ∀ {written : List Char}, IsBody written →
      IsBody (written ++ s.flatMap Quoted.escape) from hadd .nil
  induction s with
  | nil => simp
  | cons c s ih =>
    intro written hwritten
    rw [List.flatMap_cons, ← List.append_assoc]
    exact ih (hwritten.escape c)

end Quoted

end Marshal.Text
