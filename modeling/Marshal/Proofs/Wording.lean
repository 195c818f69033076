import Marshal.Code.Error
import Marshal.Proofs.Quoting
import Marshal.Proofs.Writing

/-!
# The wording of errors

The message of an error is made of fixed words, with texts from the error in the gaps between
them. There are three ways in which a text stands in its gap:

* as a literal, between quotes and with escapes. No literal is the start of another one, and
  there is no quote in the words around it, so all of the texts can be read off (`Quotes.unique`);
* as it is, but with characters that do not occur in what comes next, as those of an identifier.
  The gap then ends where the first other character stands (`eq_of_cut_first`), or starts after
  the last one (`eq_of_cut_last`);
* as it is, whatever characters are in it. The words that come next may then be part of the text.

The names of imports, and those of objects and of unknown fields, stand in the last way. Where two
of them are in one message, other texts can give the same message (`Confused`). All other messages
tell what is in their gaps (`Report.Plain.names_eq_or_confused`).
-/

namespace Marshal

namespace Text

/-! ## Literals in a text -/

/-- The text is made of characters other than quotes, and of literals for the names. -/
inductive QuotesIn : List Char → List String → Prop
  | nil : QuotesIn [] []
  | char {c : Char} {s : List Char} {names : List String} : c ≠ '"' → QuotesIn s names →
    QuotesIn (c :: s) names
  | literal {name : String} {s rest : List Char} {names : List String} :
    s = Quoted.encode name.toList ++ rest → QuotesIn rest names → QuotesIn s (name :: names)

namespace QuotesIn

variable {s s' : List Char} {names names' : List String}

/-- The names are determined by the text. -/
theorem unique (h : QuotesIn s names) (h' : QuotesIn s names') : names = names' := by
  induction h generalizing names' with
  | nil =>
    cases h' with
    | nil => rfl
    | literal hs => exact absurd hs (List.cons_ne_nil _ _).symm
  | char hc _ ih =>
    cases h' with
    | char _ h' => exact ih h'
    | literal hs => exact absurd (List.cons.inj hs).1 hc
  | literal hs _ ih =>
    -- A literal ends in the same place, however the rest is read.
    cases h' with
    | nil => exact absurd hs (List.cons_ne_nil _ _).symm
    | char hc => exact absurd (List.cons.inj hs).1 hc
    | literal hs' h' =>
      obtain ⟨hname, rfl⟩ := Quoted.encode_append_inj (hs.symm.trans hs')
      rw [String.toList_inj.1 hname, ih h']

theorem append (h : QuotesIn s names) (h' : QuotesIn s' names') :
    QuotesIn (s ++ s') (names ++ names') := by
  induction h with
  | nil => exact h'
  | char hc _ ih => exact .char hc ih
  | literal hs _ ih =>
    refine .literal ?_ ih
    rw [hs, List.append_assoc]

theorem plain (h : '"' ∉ s) : QuotesIn s [] := by
  induction s with
  | nil => exact .nil
  | cons c s ih =>
    rw [List.mem_cons, not_or] at h
    exact .char (Ne.symm h.1) (ih h.2)

end QuotesIn

/-- There is no quote in the text. -/
def Bare (s : String) : Prop := '"' ∉ s.toList

instance (s : String) : Decidable (Bare s) := inferInstanceAs (Decidable (¬_))

/-- Texts without quotes have none together. -/
theorem Bare.append {a b : String} (ha : Bare a) (hb : Bare b) : Bare (a ++ b) := by
  rw [Bare, String.toList_append, List.mem_append, not_or]
  exact ⟨ha, hb⟩

theorem Identifier.bare {s : String} (h : Identifier s) : Bare s :=
  h.not_mem (by decide) (by decide)

theorem bare_int (n : Int) : Bare (toString n) := by
  have hdigits (m : Nat) : Bare m.repr := by
    rw [Bare, Nat.toList_repr]
    intro hmem
    exact absurd (Nat.isDigit_of_mem_toDigits (by decide) (by decide) hmem) (by decide)
  cases n with
  | ofNat m => exact hdigits m
  | negSucc m => exact Bare.append (a := "-") (by decide) (hdigits m.succ)

/-- The names that are quoted in the text. -/
def Quotes (s : String) (names : List String) : Prop := QuotesIn s.toList names

namespace Quotes

variable {a b : String} {names names' : List String}

theorem unique (h : Quotes a names) (h' : Quotes a names') : names = names' :=
  QuotesIn.unique h h'

/-- The literals of two texts are those of both. -/
theorem append (ha : Quotes a names) (hb : Quotes b names') :
    Quotes (a ++ b) (names ++ names') := by
  rw [Quotes, String.toList_append]
  exact QuotesIn.append ha hb

theorem plain (h : Bare a) : Quotes a [] := QuotesIn.plain h

theorem quote (name : String) : Quotes (quote name) [name] := by
  refine .literal ?_ .nil
  rw [Text.quote, String.toList_ofList, List.append_nil]

/-- Words around the text quote nothing. -/
theorem around {before after : String} (h : Quotes a names) (hbefore : Bare before)
    (hafter : Bare after) : Quotes (before ++ a ++ after) names := by
  have happend := ((plain hbefore).append h).append (plain hafter)
  rwa [List.nil_append, List.append_nil] at happend

/-- The literals of a list are those of its elements. -/
theorem joinWith (sep : String) (hsep : Bare sep) (names : List String) :
    Quotes (joinWith sep (names.map Text.quote)) names := by
  induction names with
  | nil => exact .nil
  | cons name names ih =>
    cases names with
    | nil => exact quote name
    | cons next names =>
      have happend := ((quote name).append (plain hsep)).append ih
      rwa [Text.joinWith, List.map_cons, List.map_cons, String.intercalate_cons_cons]

end Quotes

/-- A literal can be told from what follows it. -/
theorem quote_append_inj {a b x y : String} (h : quote a ++ x = quote b ++ y) : a = b ∧ x = y := by
  have hlists := congrArg String.toList h
  simp only [String.toList_append, quote, String.toList_ofList] at hlists
  exact (Quoted.encode_append_inj hlists).imp String.toList_inj.1 String.toList_inj.1

/-- Where two texts agree up to a literal and are equal, so are the literals and what comes after
    them. -/
theorem append_quote_append_inj {before a b x y : String}
    (h : before ++ quote a ++ x = before ++ quote b ++ y) : a = b ∧ x = y := by
  rw [String.append_assoc, String.append_assoc, String.append_right_inj] at h
  exact quote_append_inj h

theorem head?_quote (a : String) : (quote a).toList.head? = some '"' := by
  rw [quote, String.toList_ofList]
  rfl

/-! ## Where gaps end -/

section Cut

variable {c : Char} {a b p q x y : String}

/-- Of two ways to cut a text in two, one cuts it first. -/
theorem append_eq_append (h : a ++ x = b ++ y) :
    (∃ w, b = a ++ w ∧ x = w ++ y) ∨ ∃ w, a = b ++ w ∧ y = w ++ x := by
  have hlists := congrArg String.toList h
  simp only [String.toList_append] at hlists
  rcases List.append_eq_append_iff.1 hlists with ⟨w, hw, hrest⟩ | ⟨w, hw, hrest⟩
  · refine .inl ⟨String.ofList w, ?_, ?_⟩ <;> simp [← String.toList_inj, hw, hrest]
  · refine .inr ⟨String.ofList w, ?_, ?_⟩ <;> simp [← String.toList_inj, hw, hrest]

theorem head?_append (hp : p.toList.head? = some c) : (p ++ x).toList.head? = some c := by
  rw [String.toList_append, List.head?_append, hp, Option.some_or]

theorem getLast?_append (hp : p.toList.getLast? = some c) : (x ++ p).toList.getLast? = some c := by
  rw [String.toList_append, List.getLast?_append, hp, Option.some_or]

/-- A part without the character that the whole starts with is empty. -/
theorem eq_empty_of_head? (h : (a ++ x).toList.head? = some c) (ha : c ∉ a.toList) : a = "" := by
  rw [String.toList_append] at h
  cases hlist : a.toList with
  | nil => exact String.toList_eq_nil_iff.1 hlist
  | cons d rest =>
    rw [hlist, List.cons_append, List.head?_cons, Option.some.injEq] at h
    rw [hlist, h] at ha
    exact absurd List.mem_cons_self ha

/-- A part without the character that the whole ends with is empty. -/
theorem eq_empty_of_getLast? (h : (x ++ a).toList.getLast? = some c) (ha : c ∉ a.toList) :
    a = "" := by
  by_contra hne
  have hlist : a.toList ≠ [] := fun hnil => hne (String.toList_eq_nil_iff.1 hnil)
  rw [String.toList_append, List.getLast?_append_of_ne_nil _ hlist] at h
  exact ha (List.mem_of_getLast? h)

/-- What stands before a `c` reaches at least as far as what is free of it. -/
theorem exists_of_cut (ha : c ∉ a.toList) (hq : q.toList.head? = some c)
    (h : a ++ x = b ++ (q ++ y)) : ∃ w, b = a ++ w ∧ x = w ++ (q ++ y) := by
  rcases append_eq_append h with hcut | ⟨w, rfl, hw⟩
  · exact hcut
  · have hempty : w = "" := by
      refine eq_empty_of_head? (hw ▸ head?_append hq) fun hc => ha ?_
      rw [String.toList_append]
      exact List.mem_append_right _ hc
    subst hempty
    exact ⟨"", by simp, by simpa using hw.symm⟩

/-- A gap ends where the first character stands that is not in it. -/
theorem eq_of_cut_first (ha : c ∉ a.toList) (hb : c ∉ b.toList) (hp : p.toList.head? = some c)
    (hq : q.toList.head? = some c) (h : a ++ (p ++ x) = b ++ (q ++ y)) :
    a = b ∧ p ++ x = q ++ y := by
  obtain ⟨w, rfl, hw⟩ := exists_of_cut ha hq h
  have hempty : w = "" := by
    refine eq_empty_of_head? (hw ▸ head?_append hp) fun hc => hb ?_
    rw [String.toList_append]
    exact List.mem_append_right _ hc
  subst hempty
  exact ⟨by simp, by simpa using hw⟩

/-- A gap starts after the last character that is not in it. -/
theorem eq_of_cut_last (ha : c ∉ a.toList) (hb : c ∉ b.toList) (hp : p.toList.getLast? = some c)
    (hq : q.toList.getLast? = some c) (h : x ++ p ++ a = y ++ q ++ b) :
    x ++ p = y ++ q ∧ a = b := by
  have hab : a = b := by
    rcases append_eq_append h with ⟨w, hw, rfl⟩ | ⟨w, hw, rfl⟩
    · have hempty : w = "" := by
        refine eq_empty_of_getLast? (hw ▸ getLast?_append hq) fun hc => ha ?_
        rw [String.toList_append]
        exact List.mem_append_left _ hc
      rw [hempty, String.empty_append]
    · have hempty : w = "" := by
        refine eq_empty_of_getLast? (hw ▸ getLast?_append hp) fun hc => hb ?_
        rw [String.toList_append]
        exact List.mem_append_left _ hc
      rw [hempty, String.empty_append]
  exact ⟨(String.append_left_inj b).1 (hab ▸ h), hab⟩

/-- A text that starts with a quote is cut in front of it or after it. -/
theorem quote_append_eq_append {w z : String} (h : "\"" ++ x = w ++ z) :
    (w = "" ∧ "\"" ++ x = z) ∨ ∃ w', w = "\"" ++ w' ∧ x = w' ++ z := by
  have hlists : '"' :: x.toList = w.toList ++ z.toList := by
    rw [← String.toList_append, ← h, String.toList_append]
    rfl
  rcases List.cons_eq_append_iff.1 hlists with ⟨hw, hz⟩ | ⟨w', hw, hx⟩
  · refine .inl ⟨String.toList_inj.1 hw, ?_⟩
    rw [← String.toList_inj, String.toList_append, hz]
    rfl
  · refine .inr ⟨String.ofList w', ?_, ?_⟩
    · simp [← String.toList_inj, hw]
    · simp [← String.toList_inj, hx]

end Cut

theorem joinWith_cons_cons (sep a b : String) (l : List String) :
    joinWith sep (a :: b :: l) = a ++ (sep ++ joinWith sep (b :: l)) := by
  rw [joinWith, String.intercalate_cons_cons, String.append_assoc, joinWith]

theorem joinWith_ne_empty {sep a : String} (ha : a ≠ "") (l : List String) :
    joinWith sep (a :: l) ≠ "" := by
  cases l with
  | nil => exact ha
  | cons b l =>
    rw [joinWith_cons_cons]
    exact fun h => ha (String.append_eq_empty_iff.1 h).1

/-- Identifiers that are joined by arrows can be told apart. -/
theorem joinWith_arrow_inj {names names' : List String} (h : ∀ name ∈ names, Identifier name)
    (h' : ∀ name ∈ names', Identifier name)
    (heq : joinWith " -> " names = joinWith " -> " names') : names = names' := by
  have hspace {name : String} (h : Identifier name) : ' ' ∉ name.toList :=
    h.not_mem (by decide) (by decide)
  have hne {name : String} (h : Identifier name) : name ≠ "" := by
    rintro rfl
    obtain ⟨c, cs, hcs, -⟩ := h
    cases hcs
  have harrow {name x y : String} (h : Identifier name) : name ≠ x ++ (" -> " ++ y) := by
    rintro rfl
    exact hspace h (by simp)
  induction names generalizing names' with
  | nil =>
    cases names' with
    | nil => rfl
    | cons a' l' => exact absurd heq.symm (joinWith_ne_empty (hne (h' a' List.mem_cons_self)) l')
  | cons a l ih =>
    rw [List.forall_mem_cons] at h
    cases names' with
    | nil => exact absurd heq (joinWith_ne_empty (hne h.1) l)
    | cons a' l' =>
      rw [List.forall_mem_cons] at h'
      -- A name ends at the first blank if others follow it, and has none in it.
      cases l with
      | nil =>
        cases l' with
        | nil => exact congrArg (fun name => [name]) heq
        | cons b' l' => exact absurd (heq.trans (joinWith_cons_cons ..)) (harrow h.1)
      | cons b l =>
        cases l' with
        | nil => exact absurd (heq.symm.trans (joinWith_cons_cons ..)) (harrow h'.1)
        | cons b' l' =>
          rw [joinWith_cons_cons, joinWith_cons_cons] at heq
          obtain ⟨rfl, hrest⟩ := eq_of_cut_first (hspace h.1) (hspace h'.1) rfl rfl heq
          rw [ih h.2 h'.2 ((String.append_right_inj _).1 hrest)]

/-! ## How texts start -/

/-- The text starts with the letters. -/
def Opens (letters : List Char) (s : String) : Prop := letters <+: s.toList

namespace Opens

variable {letters letters' : List Char} {s : String}

theorem append (h : Opens letters s) (t : String) : Opens letters (s ++ t) := by
  rw [Opens, String.toList_append]
  exact h.trans (List.prefix_append _ _)

/-- A text starts in one way only. -/
theorem unique (h : Opens letters s) (h' : Opens letters' s)
    (hlength : letters.length = letters'.length) : letters = letters' :=
  (List.prefix_of_prefix_length_le h h' hlength.le).eq_of_length hlength

end Opens

end Text

open Text

/-! ## Inconsistencies -/

/-- The names in the message of a fault, which are quoted. A type is quoted as a whole. -/
def Fault.names : Fault → List String
  | .package name | .repeatedImport name | .notIdentifier _ name | .repeatedName _ name
  | .zeroNumber name | .repeatedNumber name | .notReference name | .notMessage name
  | .repeatedSchema name | .alreadyPublished name => [name]
  | .nestedContainer type => [type.display]
  | .ambiguous name imports => name :: imports
  | .importCycle schemas => schemas
  | .selfImport | .noSymbols | .repeatedValue _ => []

theorem Role.bare_noun (role : Role) :
    Bare (role.nameNoun ++ " ") ∧ Bare ("the " ++ role.noun ++ " ") := by
  cases role <;> decide

/-- A fault quotes its names. -/
theorem Fault.quotes_message (f : Fault) : Quotes f.message f.names := by
  cases f with
  | package name | repeatedImport name | zeroNumber name | repeatedNumber name
  | repeatedSchema name | alreadyPublished name =>
    exact (Quotes.quote name).around (by decide) (by decide)
  | notIdentifier role name => exact (Quotes.quote name).around role.bare_noun.1 (by decide)
  | repeatedName role name => exact (Quotes.quote name).around role.bare_noun.2 (by decide)
  | notReference name | notMessage name => exact (Quotes.quote name).append (.plain (by decide))
  | nestedContainer type => exact (Quotes.quote type.display).append (.plain (by decide))
  | repeatedValue value =>
    exact (Quotes.plain (bare_int value.toInt)).around (by decide) (by decide)
  | ambiguous name imports =>
    have hwords : Bare " is declared by several imports (" := by decide
    have himports := Quotes.joinWith ", " (by decide) imports
    have hlist := ((Quotes.quote name).append (.plain hwords)).append himports
    have hmessage := hlist.append (.plain (a := ")") (by decide))
    rwa [List.append_nil] at hmessage
  | importCycle schemas =>
    exact (Quotes.plain (by decide)).append (.joinWith " -> " (by decide) schemas)
  | selfImport | noSymbols => exact .plain (by decide)

namespace Place

/-- The names that a place is told by. -/
def names : Place → List String
  | .schema name | .enum name | .message name | .service name => [name]
  | .field owner name | .method owner name => [owner, name]
  | .imports => []

/-- The names that stand in the place without quotes are identifiers. -/
def Plain : Place → Prop
  | .field owner name | .method owner name => Identifier owner ∧ Identifier name
  | _ => True

/-- Only the places of members have names without quotes. -/
theorem plain_of_isMember {p : Place} (h : p.isMember = false) : p.Plain := by
  cases p with
  | field | method => cases h
  | schema | enum | message | service | imports => trivial

/-- The first letters of a place, which tell of what kind it is. -/
def letters : Place → List Char
  | .schema _ => ['s', 'c', 'h', 'e']
  | .enum _ => ['e', 'n', 'u', 'm']
  | .message _ => ['m', 'e', 's', 's']
  | .service _ => ['s', 'e', 'r', 'v']
  | .field _ _ => ['f', 'i', 'e', 'l']
  | .method _ _ => ['m', 'e', 't', 'h']
  | .imports => ['i', 'm', 'p', 'o']

theorem opens_display (p : Place) : Opens p.letters p.display := by
  cases p with
  | schema | enum | message | service => exact .append ⟨_, rfl⟩ _
  | field | method => exact .append (.append (.append ⟨_, rfl⟩ _) _) _
  | imports => exact ⟨_, rfl⟩

theorem length_letters (p : Place) : p.letters.length = 4 := by cases p <;> rfl

/-- A member of which both names are identifiers is told from what follows it. -/
theorem member_append_inj {noun owner owner' name name' x y : String}
    (h : Identifier owner ∧ Identifier name) (h' : Identifier owner' ∧ Identifier name')
    (heq : noun ++ owner ++ "." ++ name ++ (": " ++ x) =
      noun ++ owner' ++ "." ++ name' ++ (": " ++ y)) :
    owner = owner' ∧ name = name' ∧ x = y := by
  simp only [String.append_assoc, String.append_right_inj] at heq
  have hcolon {s : String} (hs : Identifier s) : ':' ∉ s.toList :=
    hs.not_mem (by decide) (by decide)
  obtain ⟨howner, hrest⟩ := eq_of_cut_first h.1.dot_not_mem h'.1.dot_not_mem rfl rfl heq
  obtain ⟨hname, hrest⟩ := eq_of_cut_first (hcolon h.2) (hcolon h'.2) rfl rfl
    ((String.append_right_inj _).1 hrest)
  exact ⟨howner, hname, (String.append_right_inj _).1 hrest⟩

/-- A place is told from what follows it. -/
theorem display_append_inj {p p' : Place} (h : p.Plain) (h' : p'.Plain) {x y : String}
    (heq : p.display ++ (": " ++ x) = p'.display ++ (": " ++ y)) : p = p' ∧ x = y := by
  -- The first letters tell which place it is.
  have hletters : p.letters = p'.letters := by
    refine (p.opens_display.append (": " ++ x)).unique ?_ ?_
    · exact heq ▸ p'.opens_display.append (": " ++ y)
    · rw [length_letters, length_letters]
  cases p <;> cases p' <;> cases hletters
  case schema.schema | enum.enum | message.message | service.service =>
    obtain ⟨hname, hrest⟩ := append_quote_append_inj heq
    exact ⟨congrArg _ hname, (String.append_right_inj _).1 hrest⟩
  case field.field | method.method =>
    obtain ⟨howner, hname, hrest⟩ := member_append_inj h h' heq
    exact ⟨congrArg₂ _ howner hname, hrest⟩
  case imports.imports =>
    exact ⟨rfl, (String.append_right_inj _).1 ((String.append_right_inj _).1 heq)⟩

end Place

namespace CompileError

/-- The texts in the gaps of the message. -/
def names : CompileError → List String
  | .unresolvedType owner member name => [name, owner, member]
  | .mapKey message field key => [message, field, key.display]
  | .valueRecursion message field cycle => message :: field :: cycle
  | .inconsistent place fault => place.names ++ fault.names
  | .unresolvedImport schema name => [schema, name]

variable {owner owner' member member' name name' message message' field field' : String}

/-- The type may have any name: its place comes last. -/
theorem unresolvedType_inj (h : Identifier owner ∧ Identifier member)
    (h' : Identifier owner' ∧ Identifier member')
    (heq : (unresolvedType owner member name).message =
      (unresolvedType owner' member' name').message) :
    name = name' ∧ owner = owner' ∧ member = member' := by
  obtain ⟨hrest, hmember⟩ := eq_of_cut_last h.2.dot_not_mem h'.2.dot_not_mem rfl rfl
    ((String.append_left_inj "\"").1 heq)
  obtain ⟨hrest, howner⟩ := eq_of_cut_last h.1.bare h'.1.bare rfl rfl
    ((String.append_left_inj _).1 hrest)
  have hname := (String.append_right_inj _).1 ((String.append_left_inj _).1 hrest)
  exact ⟨hname, howner, hmember⟩

/-- The error for a key tells its member and its type. -/
theorem mapKey_inj {key key' : FieldType} (h : Identifier message ∧ Identifier field)
    (h' : Identifier message' ∧ Identifier field')
    (heq : (mapKey message field key).message = (mapKey message' field' key').message) :
    message = message' ∧ field = field' ∧ key.display = key'.display := by
  have hwords : "Field \"" ++ message ++ "." ++ field ++ "\" uses \"" ++ key.display =
      "Field \"" ++ message' ++ "." ++ field' ++ "\" uses \"" ++ key'.display :=
    (String.append_left_inj "\" as a map key; ").1
      ((String.append_left_inj "keys must be integers or bool").1 heq)
  simp only [String.append_assoc, String.append_right_inj] at hwords
  obtain ⟨hmessage, hrest⟩ := eq_of_cut_first h.1.dot_not_mem h'.1.dot_not_mem rfl rfl hwords
  obtain ⟨hfield, hrest⟩ := eq_of_cut_first h.2.bare h'.2.bare rfl rfl
    ((String.append_right_inj _).1 hrest)
  exact ⟨hmessage, hfield, (String.append_right_inj _).1 hrest⟩

/-- The error for a cycle tells its first field and all of its messages. -/
theorem valueRecursion_inj {cycle cycle' : List String} (hmessage : Identifier message)
    (hmessage' : Identifier message') (hfield : Identifier field) (hfield' : Identifier field')
    (hcycle : ∀ name ∈ cycle, Identifier name) (hcycle' : ∀ name ∈ cycle', Identifier name)
    (heq : (valueRecursion message field cycle).message =
      (valueRecursion message' field' cycle').message) :
    message = message' ∧ field = field' ∧ cycle = cycle' := by
  have hwords : "Message \"" ++ message ++ "\" contains itself by value through field \"" ++
        field ++ "\" (" ++ joinWith " -> " cycle =
      "Message \"" ++ message' ++ "\" contains itself by value through field \"" ++
        field' ++ "\" (" ++ joinWith " -> " cycle' := (String.append_left_inj ")").1 heq
  simp only [String.append_assoc, String.append_right_inj] at hwords
  obtain ⟨hmessages, hrest⟩ := eq_of_cut_first hmessage.bare hmessage'.bare rfl rfl hwords
  obtain ⟨hfields, hrest⟩ := eq_of_cut_first hfield.bare hfield'.bare rfl rfl
    ((String.append_right_inj _).1 hrest)
  exact ⟨hmessages, hfields,
    joinWith_arrow_inj hcycle hcycle' ((String.append_right_inj _).1 hrest)⟩

/-- A place is told first, and then what is wrong there. -/
theorem inconsistent_inj {p p' : Place} {f f' : Fault} (h : p.Plain) (h' : p'.Plain)
    (heq : (inconsistent p f).message = (inconsistent p' f').message) :
    p.names ++ f.names = p'.names ++ f'.names := by
  have hwords : "Inconsistent IR in " ++ p.display ++ ": " ++ f.message =
      "Inconsistent IR in " ++ p'.display ++ ": " ++ f'.message := heq
  simp only [String.append_assoc, String.append_right_inj] at hwords
  obtain ⟨rfl, hfault⟩ := p.display_append_inj h h' hwords
  rw [f.quotes_message.unique (hfault ▸ f'.quotes_message)]

/-- Two schemas that stand as they are, with words between them that start and end with a quote. The
    words can occur again in what follows them: in its first name, or such that they share a
    quote. -/
theorem eq_or_of_imports {b b' z : String}
    (h : "\" imports \"" ++ b = z ++ ("\" imports \"" ++ b')) :
    (z = "" ∧ b = b') ∨ (z = "\" imports " ∧ b = " imports \"" ++ b') ∨
      ∃ w, z = "\" imports \"" ++ w ∧ b = w ++ "\" imports \"" ++ b' := by
  -- The words have a quote at both ends. The other text starts with them at the first quote, at the
  -- second one, or after both.
  have hwords (x : String) : "\" imports \"" ++ x = "\"" ++ (" imports " ++ ("\"" ++ x)) := by
    rw [← String.append_assoc, ← String.append_assoc]
    rfl
  have hnext (x : String) : "\" imports \"" ++ x = "\"" ++ (" imports \"" ++ x) := by
    rw [← String.append_assoc]
    rfl
  rw [hwords b] at h
  rcases quote_append_eq_append h with ⟨rfl, hz⟩ | ⟨z', rfl, hz⟩
  · rw [← hwords b, String.append_right_inj] at hz
    exact .inl ⟨rfl, hz⟩
  · obtain ⟨w, rfl, hw⟩ := exists_of_cut (c := '"') (by decide) rfl hz
    rcases quote_append_eq_append hw with ⟨rfl, hb⟩ | ⟨w', rfl, hb⟩
    · rw [hnext, String.append_right_inj] at hb
      exact .inr (.inl ⟨rfl, hb⟩)
    · refine .inr (.inr ⟨w', (hwords w').symm, ?_⟩)
      rw [hb, String.append_assoc]

end CompileError

/-! ## Names that are taken -/

namespace Code

namespace Named

/-- The name of what a member is in. -/
def names : Named → List String
  | .symbol owner | .field owner | .method owner => [owner]
  | .enum | .message | .service | .imported => []

/-- The name that stands without quotes, of what a member is in, is an identifier. -/
def Plain : Named → Prop
  | .symbol owner | .field owner | .method owner => Identifier owner
  | .enum | .message | .service | .imported => True

/-- The first letters, which tell what carries the name. -/
def letters : Named → List Char
  | .enum => ['e', 'n', 'u', 'm']
  | .symbol _ => ['s', 'y', 'm', 'b']
  | .message => ['m', 'e', 's', 's']
  | .field _ => ['f', 'i', 'e', 'l']
  | .service => ['s', 'e', 'r', 'v']
  | .method _ => ['m', 'e', 't', 'h']
  | .imported => ['i', 'm', 'p', 'o']

theorem opens_display (what : Named) : Opens what.letters what.display := by
  cases what with
  | symbol | field | method => exact .append ⟨_, rfl⟩ _
  | enum | message | service | imported => exact ⟨_, rfl⟩

theorem length_letters (what : Named) : what.letters.length = 4 := by cases what <;> rfl

/-- What names stand for is told by how it is shown. -/
theorem display_inj {what what' : Named} (h : what.display = what'.display) : what = what' := by
  have hletters : what.letters = what'.letters := by
    refine what.opens_display.unique (h ▸ what'.opens_display) ?_
    rw [length_letters, length_letters]
  cases what <;> cases what' <;> cases hletters
  case symbol.symbol | field.field | method.method =>
    exact congrArg _ ((String.append_right_inj _).1 h)
  all_goals rfl

theorem bare_display {what : Named} (h : what.Plain) : Bare what.display := by
  cases what with
  | symbol | field | method => exact Bare.append (by decide) (Identifier.bare h)
  | enum | message | service | imported => decide

end Named

namespace EmitError

/-- The texts in the gaps of the message. -/
def names : EmitError → List String
  | .nameTaken what name ident => what.names ++ [name, ident]
  | _ => []

/-- The error for a name that is taken tells what it is for, the name, and what it becomes. -/
theorem nameTaken_inj {what what' : Named} {name name' ident ident' : String} (h : what.Plain)
    (h' : what'.Plain)
    (heq : (nameTaken what name ident).message = (nameTaken what' name' ident').message) :
    what = what' ∧ name = name' ∧ ident = ident' := by
  have hgroup (what : Named) (name ident : String) : (nameTaken what name ident).reason =
      what.display ++ " " ++ (quote name ++ (" becomes the Rust name " ++ (quote ident ++
        " which is already taken"))) := by
    simp only [← String.append_assoc]
    rfl
  have hbare {what : Named} (h : what.Plain) : Bare (what.display ++ " ") :=
    (what.bare_display h).append (by decide)
  have hreason : (nameTaken what name ident).reason = (nameTaken what' name' ident').reason :=
    (String.append_right_inj _).1 heq
  rw [hgroup, hgroup] at hreason
  obtain ⟨hwhat, hrest⟩ := eq_of_cut_first (hbare h) (hbare h') (head?_quote name)
    (head?_quote name') hreason
  obtain ⟨hname, hrest⟩ := quote_append_inj hrest
  obtain ⟨hident, -⟩ := quote_append_inj ((String.append_right_inj _).1 hrest)
  exact ⟨what.display_inj ((String.append_left_inj " ").1 hwhat), hname, hident⟩

end EmitError

end Code

/-! ## Values -/

namespace Value

theorem IsField.bare {field : String} (h : IsField field) : Bare field := by
  rcases h with rfl | h
  · decide
  · exact h.bare

theorem IsField.dot_not_mem {field : String} (h : IsField field) : '.' ∉ field.toList := by
  rcases h with rfl | h
  · decide
  · exact h.dot_not_mem

/-- What is expected has no blanks and no quotes, if it is a word. -/
theorem Expected.IsWord.not_mem {expected : Expected} (h : expected.IsWord) :
    ' ' ∉ expected.display.toList ∧ Bare expected.display := by
  cases expected with
  | primitive p => cases p <;> decide
  | enum | array | map | object => decide
  | message name => exact ⟨Identifier.not_mem h (by decide) (by decide), Identifier.bare h⟩
  | fieldOf => exact h.elim

theorem Kind.bare_name (k : Kind) : Bare k.name := by cases k <;> decide

namespace Error

/-- The texts in the gaps of the message. -/
def names : Error → List String
  | .wire _ => []
  | .mismatch field expected found => [field, expected.display, found.display]
  | .unknownName name => [name]
  | .unknownId id => [id.display]

variable {field field' : String} {expected expected' : Expected} {found found' : Found}

/-- Mismatches whose field and whose expectation are plain tell all of their parts. -/
theorem mismatch_inj (hfield : IsField field) (hfield' : IsField field') (h : expected.IsWord)
    (h' : expected'.IsWord)
    (heq : (mismatch field expected found).message = (mismatch field' expected' found').message) :
    (mismatch field expected found).names = (mismatch field' expected' found').names := by
  have hwords : "Field \"" ++ field ++ "\" expects " ++ expected.display ++ " but got " ++
        found.display =
      "Field \"" ++ field' ++ "\" expects " ++ expected'.display ++ " but got " ++
        found'.display := heq
  simp only [String.append_assoc, String.append_right_inj] at hwords
  obtain ⟨hfields, hrest⟩ := eq_of_cut_first hfield.bare hfield'.bare rfl rfl hwords
  obtain ⟨hexpected, hrest⟩ := eq_of_cut_first h.not_mem.1 h'.not_mem.1 rfl rfl
    ((String.append_right_inj _).1 hrest)
  rw [names, names, hfields, hexpected, (String.append_right_inj _).1 hrest]

/-- A field that is not known may have any name: its message comes last. -/
theorem unknown_inj {message message' : String} (h : Identifier message)
    (h' : Identifier message')
    (heq : (mismatch field (.fieldOf message) .unknownField).message =
      (mismatch field' (.fieldOf message') .unknownField).message) :
    field = field' ∧ message = message' := by
  have hspace {name : String} (h : Identifier name) : ' ' ∉ name.toList :=
    h.not_mem (by decide) (by decide)
  have hwords : "Field \"" ++ field ++ "\" expects " ++ ("a field of " ++ message) =
      "Field \"" ++ field' ++ "\" expects " ++ ("a field of " ++ message') :=
    (String.append_left_inj " but got ").1 ((String.append_left_inj "unknown field").1 heq)
  rw [← String.append_assoc, ← String.append_assoc] at hwords
  obtain ⟨hrest, hmessage⟩ := eq_of_cut_last (hspace h) (hspace h') rfl rfl hwords
  have hfield := (String.append_left_inj _).1 ((String.append_left_inj _).1 hrest)
  exact ⟨(String.append_right_inj _).1 hfield, hmessage⟩

/-- If a field that is not known is taken for another mismatch, then what is found in this ends in
    the words about the field, and the name of the field starts with the words about this. -/
theorem exists_of_unknown {message : String} (hfield : IsField field) (h : expected.IsWord)
    (heq : (mismatch field expected found).message =
      (mismatch field' (.fieldOf message) .unknownField).message) :
    ∃ name, field' = field ++ "\" expects " ++ expected.display ++ " but got " ++ name ∧
      found.display = name ++ "\" expects a field of " ++ message ++ " but got unknown field" := by
  have hwords : "Field \"" ++ field ++ "\" expects " ++ expected.display ++ " but got " ++
        found.display =
      "Field \"" ++ field' ++ "\" expects " ++ ("a field of " ++ message) ++ " but got " ++
        "unknown field" := heq
  simp only [String.append_assoc, String.append_right_inj] at hwords
  obtain ⟨w, rfl, hw⟩ := exists_of_cut hfield.bare rfl hwords
  have hexpects (x : String) : "\" expects " ++ x = "\"" ++ (" expects " ++ x) := by
    rw [← String.append_assoc]
    rfl
  rw [hexpects] at hw
  rcases quote_append_eq_append hw with ⟨rfl, hrest⟩ | ⟨w', rfl, hrest⟩
  · -- The fields are the same: then what is expected of them starts with the same word.
    have hfieldOf (x : String) : "a field of " ++ x = "a" ++ (" field of " ++ x) := by
      rw [← String.append_assoc]
      rfl
    rw [← hexpects, String.append_right_inj, hfieldOf] at hrest
    obtain ⟨-, hrest⟩ := eq_of_cut_first h.not_mem.1 (by decide) rfl rfl hrest
    have hbut : Opens [' ', 'b'] (" but got " ++ found.display) := .append ⟨_, rfl⟩ _
    have hof : Opens [' ', 'f'] (" field of " ++ (message ++ (" but got " ++ "unknown field"))) :=
      .append ⟨_, rfl⟩ _
    rw [hrest] at hbut
    cases hbut.unique hof rfl
  · -- The first quote after that of the field is in what is found.
    have hbare : Bare (" expects " ++ expected.display ++ " but got ") :=
      (Bare.append (by decide) h.not_mem.2).append (by decide)
    rw [← String.append_assoc, ← String.append_assoc] at hrest
    obtain ⟨name, rfl, hfound⟩ := exists_of_cut hbare rfl hrest
    refine ⟨name, ?_, ?_⟩
    · rw [String.append_assoc, String.append_assoc, ← hexpects]
      simp only [String.append_assoc]
    · have hphrase (x : String) :
          "\" expects " ++ ("a field of " ++ x) = "\" expects a field of " ++ x := by
        rw [← String.append_assoc]
        rfl
      rw [hfound, hphrase, String.append_assoc, String.append_assoc]
      rfl

/-- What is found has no quote in it if it is the kind of a value. -/
theorem kind_ne_unknown {k : Kind} {message : String} (hfield : IsField field)
    (h : expected.IsWord) :
    (mismatch field expected (.value k)).message ≠
      (mismatch field' (.fieldOf message) .unknownField).message := by
  intro heq
  obtain ⟨name, -, hname⟩ := exists_of_unknown hfield h heq
  refine k.bare_name ?_
  have hdisplay : k.name = _ := hname
  simp [hdisplay]

end Error

end Value

/-! ## Reports -/

/-- An error of any kind. -/
inductive Report
  | compile (e : CompileError)
  | emit (e : Code.EmitError)
  | value (e : Value.Error)

namespace Report

def message : Report → String
  | .compile e => e.message
  | .emit e => e.message
  | .value e => e.message

/-- The texts in the gaps of the message: names, and the words for types and kinds of values. -/
def names : Report → List String
  | .compile e => e.names
  | .emit e => e.names
  | .value e => e.names

/-- The texts that stand in the message as they are, but for those that come from outside, are
    identifiers. -/
inductive Plain : Report → Prop
  | unresolvedType {owner member : String} (name : String) :
    Identifier owner ∧ Identifier member → Plain (.compile (.unresolvedType owner member name))
  | mapKey {message field : String} (key : FieldType) :
    Identifier message ∧ Identifier field → Plain (.compile (.mapKey message field key))
  | valueRecursion {message field : String} {cycle : List String} :
    Identifier message → Identifier field → (∀ name ∈ cycle, Identifier name) →
    Plain (.compile (.valueRecursion message field cycle))
  | inconsistent {place : Place} (fault : Fault) :
    place.Plain → Plain (.compile (.inconsistent place fault))
  | unresolvedImport (schema name : String) : Plain (.compile (.unresolvedImport schema name))
  | nameTaken {what : Code.Named} (name ident : String) :
    what.Plain → Plain (.emit (.nameTaken what name ident))
  | wire (e : Wire.Error) : Plain (.value (.wire e))
  | mismatch {field : String} {expected : Value.Expected} {found : Value.Found} :
    Value.Mismatched (.mismatch field expected found) →
    Plain (.value (.mismatch field expected found))
  | unknownName (name : String) : Plain (.value (.unknownName name))
  | unknownId (id : MessageId) : Plain (.value (.unknownId id))

/-- The first letters of the message. -/
def letters : Report → List Char
  | .compile (.unresolvedType _ _ _) => ['U', 'n', 'r']
  | .compile (.mapKey _ _ _) => ['F', 'i', 'e']
  | .compile (.valueRecursion _ _ _) => ['M', 'e', 's']
  | .compile (.inconsistent _ _) => ['I', 'n', 'c']
  | .compile (.unresolvedImport _ _) => ['S', 'c', 'h']
  | .emit _ => ['E', 'm', 'i']
  | .value (.wire _) => ['W', 'i', 'r']
  | .value (.mismatch _ _ _) => ['F', 'i', 'e']
  | .value (.unknownName _) | .value (.unknownId _) => ['U', 'n', 'k']

/-- Every message starts with its letters. -/
theorem opens_message (e : Report) : Opens e.letters e.message := by
  -- A message is put together from the left, so that its first words are the innermost.
  cases e with
  | compile e =>
    cases e with
    | unresolvedType | valueRecursion =>
      iterate 6 apply Opens.append
      exact ⟨_, rfl⟩
    | mapKey =>
      iterate 7 apply Opens.append
      exact ⟨_, rfl⟩
    | inconsistent =>
      iterate 3 apply Opens.append
      exact ⟨_, rfl⟩
    | unresolvedImport =>
      iterate 4 apply Opens.append
      exact ⟨_, rfl⟩
  | emit e => exact .append ⟨_, rfl⟩ _
  | value e =>
    cases e with
    | mismatch =>
      iterate 5 apply Opens.append
      exact ⟨_, rfl⟩
    | wire | unknownName | unknownId => exact .append ⟨_, rfl⟩ _

theorem length_letters (e : Report) : e.letters.length = 3 := by
  cases e with
  | compile e => cases e <;> rfl
  | emit => rfl
  | value e => cases e <;> rfl

end Report

/-- Errors that have the same message, although there are different texts in its gaps. -/
inductive Confused : Report → Report → Prop
  /-- The words between two schemas stand twice, with a text between them that is part of the one
      name or of the other. -/
  | imports (schema between name : String) :
    Confused (.compile (.unresolvedImport schema (between ++ "\" imports \"" ++ name)))
      (.compile (.unresolvedImport (schema ++ "\" imports \"" ++ between) name))
  /-- The words stand twice and share a quote. -/
  | sharedQuote (schema name : String) :
    Confused (.compile (.unresolvedImport schema (" imports \"" ++ name)))
      (.compile (.unresolvedImport (schema ++ "\" imports ") name))
  /-- The words about a field that is not known are part of the name of an object, or those about
      the object are part of the name of the field. -/
  | fields (field message name owner : String) :
    Confused
      (.value (.mismatch field (.message message)
        (.message (name ++ "\" expects a field of " ++ owner ++ " but got unknown field"))))
      (.value (.mismatch (field ++ "\" expects " ++ message ++ " but got " ++ name)
        (.fieldOf owner) .unknownField))

namespace Confused

variable {e e' : Report}

/-- Confused errors have the same message, whatever is in their gaps. -/
theorem message_eq (h : Confused e e') : e.message = e'.message := by
  cases h with
  | imports schema between name =>
    change "Schema \"" ++ schema ++ "\" imports \"" ++ (between ++ "\" imports \"" ++ name) ++ _ =
      "Schema \"" ++ (schema ++ "\" imports \"" ++ between) ++ "\" imports \"" ++ name ++ _
    simp only [String.append_assoc]
  | sharedQuote schema name =>
    change "Schema \"" ++ schema ++ "\" imports \"" ++ (" imports \"" ++ name) ++ _ =
      "Schema \"" ++ (schema ++ "\" imports ") ++ "\" imports \"" ++ name ++ _
    -- The quote between them closes the first name or opens the second one.
    have hquote (x : String) : "\" imports \"" ++ (" imports \"" ++ x) =
        "\" imports " ++ ("\" imports \"" ++ x) := by
      rw [← String.append_assoc, ← String.append_assoc]
      rfl
    simp only [String.append_assoc, hquote]
  | fields field message name owner =>
    change "Field \"" ++ field ++ "\" expects " ++ message ++ " but got " ++
        (name ++ "\" expects a field of " ++ owner ++ " but got unknown field") =
      "Field \"" ++ (field ++ "\" expects " ++ message ++ " but got " ++ name) ++ "\" expects " ++
        ("a field of " ++ owner) ++ " but got " ++ "unknown field"
    have hphrase (x : String) :
        "\" expects a field of " ++ x = "\" expects " ++ ("a field of " ++ x) := by
      rw [← String.append_assoc]
      rfl
    simp only [String.append_assoc, hphrase]
    rfl

/-- The first text of the one is only the start of the first text of the other. -/
theorem names_ne (h : Confused e e') : e.names ≠ e'.names := by
  -- The first name of one error goes on in that of the other.
  have hne {a b c : String} (hb : b ≠ "") : a ≠ a ++ (b ++ c) := by
    intro h
    have hlists := congrArg String.toList h
    rw [String.toList_append, List.self_eq_append_right] at hlists
    exact hb (String.append_eq_empty_iff.1 (String.toList_eq_nil_iff.1 hlists)).1
  intro heq
  cases h with
  | imports schema between name =>
    have hfirst := (List.cons.inj heq).1
    rw [String.append_assoc] at hfirst
    exact hne (by decide) hfirst
  | sharedQuote schema name =>
    have hfirst := (List.cons.inj heq).1
    exact hne (b := "\" imports ") (c := "") (by decide) (by rwa [String.append_empty])
  | fields field message name owner =>
    have hfirst := (List.cons.inj heq).1
    rw [String.append_assoc, String.append_assoc, String.append_assoc] at hfirst
    exact hne (by decide) hfirst

end Confused

/-! ## What messages tell -/

namespace Report

open CompileError Value

/-- If the schema of one error goes on where that of the other ends, they are confused, or it does
    not go on at all. -/
theorem names_eq_or_confused_of_append (a : String) {b b' z : String}
    (h : "\" imports \"" ++ b = z ++ ("\" imports \"" ++ b')) :
    [a, b] = [a ++ z, b'] ∨
      Confused (.compile (.unresolvedImport a b)) (.compile (.unresolvedImport (a ++ z) b')) := by
  rcases eq_or_of_imports h with ⟨rfl, rfl⟩ | ⟨rfl, rfl⟩ | ⟨w, rfl, rfl⟩
  · exact .inl (by rw [String.append_empty])
  · exact .inr (.sharedQuote a b')
  · rw [← String.append_assoc]
    exact .inr (.imports a w b')

/-- An import and the schema that has it can be told, unless they are confused with others. -/
theorem names_eq_or_of_imports {a a' b b' : String}
    (heq : (unresolvedImport a b).message = (unresolvedImport a' b').message) :
    [a, b] = [a', b'] ∨
      Confused (.compile (.unresolvedImport a b)) (.compile (.unresolvedImport a' b')) ∨
      Confused (.compile (.unresolvedImport a' b')) (.compile (.unresolvedImport a b)) := by
  have hwords : "Schema \"" ++ a ++ "\" imports \"" ++ b =
      "Schema \"" ++ a' ++ "\" imports \"" ++ b' :=
    (String.append_left_inj "\", which has not been compiled").1 heq
  simp only [String.append_assoc, String.append_right_inj] at hwords
  rcases append_eq_append hwords with ⟨z, rfl, hz⟩ | ⟨z, rfl, hz⟩
  · exact (names_eq_or_confused_of_append a hz).imp_right .inl
  · exact (names_eq_or_confused_of_append a' hz).imp Eq.symm .inr

/-- A mismatch tells what is in its gaps, unless it is confused with another one. -/
theorem names_eq_or_of_mismatched {e e' : Value.Error} (h : Mismatched e) (h' : Mismatched e')
    (heq : e.message = e'.message) :
    e.names = e'.names ∨ Confused (.value e) (.value e') ∨ Confused (.value e') (.value e) := by
  cases h with
  | value k hfield hword =>
    cases h' with
    | value k' hfield' hword' => exact .inl (Error.mismatch_inj hfield hfield' hword hword' heq)
    | object name' hfield' hmessage' =>
      exact .inl (Error.mismatch_inj hfield hfield' hword hmessage' heq)
    -- The name of a kind has no quotes, but what stands in its place would.
    | unknown field' hmessage' => exact (Error.kind_ne_unknown hfield hword heq).elim
  | @object field message name hfield hmessage =>
    cases h' with
    | value k' hfield' hword' => exact .inl (Error.mismatch_inj hfield hfield' hmessage hword' heq)
    | object name' hfield' hmessage' =>
      exact .inl (Error.mismatch_inj hfield hfield' hmessage hmessage' heq)
    | unknown field' hmessage' =>
      have hword : (Expected.message message).IsWord := hmessage
      -- But the name of an object may go on like the message for an unknown field.
      obtain ⟨n, rfl, rfl⟩ := Error.exists_of_unknown hfield hword heq
      exact .inr (.inl (.fields ..))
  | unknown field hmessage =>
    cases h' with
    | value k' hfield' hword' => exact (Error.kind_ne_unknown hfield' hword' heq.symm).elim
    | @object field' message' name' hfield' hmessage' =>
      have hword' : (Expected.message message').IsWord := hmessage'
      obtain ⟨n, rfl, rfl⟩ := Error.exists_of_unknown hfield' hword' heq.symm
      exact .inr (.inr (.fields ..))
    | unknown field' hmessage' =>
      obtain ⟨rfl, rfl⟩ := Error.unknown_inj hmessage hmessage' heq
      exact .inl rfl

/-- Keys of maps are not taken for mismatches, although both messages start with a field. -/
theorem mapKey_ne_mismatch {message field : String} (key : FieldType)
    (h : Identifier message ∧ Identifier field) {e : Value.Error} (h' : Mismatched e) :
    (mapKey message field key).message ≠ e.message := by
  intro heq
  have hmember {field' : String} {expected : Expected} {found : Found} (hfield' : IsField field')
      (heq : (mapKey message field key).message =
        (Error.mismatch field' expected found).message) : False := by
    have hwords : "Field \"" ++ message ++ "." ++ field ++ "\" uses \"" ++ key.display ++
          "\" as a map key; " ++ "keys must be integers or bool" =
        "Field \"" ++ field' ++ "\" expects " ++ expected.display ++ " but got " ++
          found.display := heq
    have hbare : Bare (message ++ "." ++ field) := (h.1.bare.append (by decide)).append h.2.bare
    simp only [String.append_assoc, String.append_right_inj] at hwords
    rw [← String.append_assoc, ← String.append_assoc] at hwords
    obtain ⟨hdot, -⟩ := eq_of_cut_first hbare hfield'.bare rfl rfl hwords
    refine hfield'.dot_not_mem ?_
    simp [← hdot]
  cases h' with
  | value k hfield' => exact hmember hfield' heq
  | object name hfield' => exact hmember hfield' heq
  | @unknown field' message' =>
    -- The name of the field may be anything, but the messages end in different letters.
    have hbool : (mapKey message field key).message.toList.getLast? = some 'l' :=
      getLast?_append rfl
    have hunknown :
      (Error.mismatch field' (.fieldOf message') .unknownField).message.toList.getLast? =
        some 'd' := getLast?_append rfl
    cases hbool.symm.trans (heq ▸ hunknown)

/-- Errors whose plain texts are identifiers tell by their messages what is in the gaps, unless
    they are confused. -/
theorem Plain.names_eq_or_confused {e e' : Report} (h : e.Plain) (h' : e'.Plain)
    (heq : e.message = e'.message) : e.names = e'.names ∨ Confused e e' ∨ Confused e' e := by
  -- The first letters tell the kinds of errors apart, but for keys and mismatches.
  have hletters : e.letters = e'.letters := by
    refine e.opens_message.unique (heq ▸ e'.opens_message) ?_
    rw [length_letters, length_letters]
  cases h with
  | unresolvedType name h =>
    cases h' with
    | unresolvedType name' h' =>
      obtain ⟨rfl, rfl, rfl⟩ := unresolvedType_inj h h' heq
      exact .inl rfl
    | _ => cases hletters
  | mapKey key h =>
    cases h' with
    | mapKey key' h' =>
      obtain ⟨rfl, rfl, hkey⟩ := mapKey_inj h h' heq
      exact .inl (congrArg (fun key => [_, _, key]) hkey)
    | mismatch h' => exact absurd heq (mapKey_ne_mismatch key h h')
    | _ => cases hletters
  | valueRecursion hmessage hfield hcycle =>
    cases h' with
    | valueRecursion hmessage' hfield' hcycle' =>
      obtain ⟨rfl, rfl, rfl⟩ :=
        valueRecursion_inj hmessage hmessage' hfield hfield' hcycle hcycle' heq
      exact .inl rfl
    | _ => cases hletters
  | inconsistent fault h =>
    cases h' with
    | inconsistent fault' h' => exact .inl (inconsistent_inj h h' heq)
    | _ => cases hletters
  | unresolvedImport schema name =>
    cases h' with
    | unresolvedImport schema' name' => exact names_eq_or_of_imports heq
    | _ => cases hletters
  | nameTaken name ident h =>
    cases h' with
    | nameTaken name' ident' h' =>
      obtain ⟨rfl, rfl, rfl⟩ := Code.EmitError.nameTaken_inj h h' heq
      exact .inl rfl
    | _ => cases hletters
  | wire =>
    cases h' with
    | wire => exact .inl rfl
    | _ => cases hletters
  | mismatch h =>
    cases h' with
    | mapKey key' h' => exact absurd heq.symm (mapKey_ne_mismatch key' h' h)
    | mismatch h' => exact names_eq_or_of_mismatched h h' heq
    | _ => cases hletters
  | unknownName | unknownId =>
    cases h' with
    | unknownName | unknownId =>
      exact .inl (congrArg (fun name => [name]) ((String.append_right_inj _).1 heq))
    | _ => cases hletters

end Report

end Marshal
