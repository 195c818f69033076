import Marshal.Json.Printer
import Marshal.Json.Reader
import Marshal.Proofs.Quoting

/-!
# Printed documents read back

Both printers spell the tokens of a document (`tokens`), one after the other
with blanks between them, and the tokens are read as the document. So a printed
document is read as itself (`parse?_compact`, `parse?_pretty`). Its numbers have
to be integers: a decimal is printed as spelt, whatever its spelling is.
-/

namespace Marshal.Json

mutual

/-- The tokens of a document. -/
def tokens : Json → List Token
  | .null => [.null]
  | .bool b => [.bool b]
  | .number n => [.number n]
  | .string text => [.string (some text)]
  | .array items => .openBracket :: (elementTokens items ++ [.closeBracket])
  | .object members => .openBrace :: (memberTokens members ++ [.closeBrace])
  | .unpaired => [.string none]

/-- The tokens of the elements of an array. -/
def elementTokens : List Json → List Token
  | [] => []
  | [v] => tokens v
  | v :: vs => tokens v ++ .comma :: elementTokens vs

/-- The tokens of the members of an object. -/
def memberTokens : List (String × Json) → List Token
  | [] => []
  | [(name, v)] => .string (some name) :: .colon :: tokens v
  | (name, v) :: vs => .string (some name) :: .colon :: (tokens v ++ .comma :: memberTokens vs)

end

theorem elementTokens_cons_cons (v w : Json) (vs : List Json) :
    elementTokens (v :: w :: vs) = tokens v ++ .comma :: elementTokens (w :: vs) := rfl

theorem memberTokens_cons_cons (m n : String × Json) (ms : List (String × Json)) :
    memberTokens (m :: n :: ms)
      = .string (some m.1) :: .colon :: (tokens m.2 ++ .comma :: memberTokens (n :: ms)) := rfl

/-- The tokens of elements start with those of the first one. -/
theorem exists_elementTokens_cons (v : Json) (vs : List Json) :
    ∃ rest, elementTokens (v :: vs) = tokens v ++ rest := by
  cases vs with
  | nil => exact ⟨[], (List.append_nil _).symm⟩
  | cons w vs => exact ⟨_, elementTokens_cons_cons v w vs⟩

/-- All numbers in the document are integers, and all strings have a text. -/
inductive Integral : Json → Prop
  | null : Integral .null
  | bool (b : Bool) : Integral (.bool b)
  | integer (negative : Bool) (magnitude : Nat) : Integral (.number (.integer negative magnitude))
  | string (text : String) : Integral (.string text)
  | array {items : List Json} (h : ∀ v ∈ items, Integral v) : Integral (.array items)
  | object {members : List (String × Json)} (h : ∀ m ∈ members, Integral m.2) :
    Integral (.object members)

/-! ## Numbers -/

/-- The number before the text ends there. -/
def Breaks (rest : List Char) : Prop :=
  ∀ c ∈ rest.head?, c.isDigit = false ∧ c ∉ ['.', 'e', 'E']

/-- The digits of a number end where something else comes. -/
theorem spanDigits_append {digits rest : List Char} (h : ∀ c ∈ digits, c.isDigit = true)
    (hrest : Breaks rest) : spanDigits (digits ++ rest) = (digits, rest) := by
  induction digits with
  | nil =>
    cases rest with
    | nil => rfl
    | cons c rest => simp [spanDigits, (hrest c rfl).1]
  | cons c digits ih =>
    simp only [List.forall_mem_cons] at h
    simp [spanDigits, h.1, ih h.2]

/-- There is no fraction where no point comes. -/
theorem spanFraction_of_breaks {rest : List Char} (h : Breaks rest) :
    spanFraction rest = some ([], rest) := by
  rw [spanFraction]
  rintro cs rfl
  exact absurd (h '.' rfl).2 (by decide)

/-- There is no exponent where no letter for it comes. -/
theorem spanExponent_of_breaks {rest : List Char} (h : Breaks rest) :
    spanExponent rest = some ([], rest) := by
  cases rest with
  | nil => rfl
  | cons c rest =>
    have hc := (h c rfl).2
    simp only [List.mem_cons, not_or] at hc
    simp [spanExponent, hc]

/-- Only zero is written with a zero in front. -/
theorem toDigits_eq_zero_cons {n : Nat} {digits : List Char}
    (h : Nat.toDigits 10 n = '0' :: digits) : digits = [] := by
  rw [Nat.toDigits_eq_if (by decide)] at h
  split at h
  case isTrue => simpa using (List.cons.inj h).2.symm
  case isFalse hn =>
    -- the digits of `n / 10` come first, and these are a lone zero
    cases hd : Nat.toDigits 10 (n / 10) with
    | nil => exact absurd hd Nat.toDigits_ne_nil
    | cons c cs =>
      rw [hd, List.cons_append] at h
      obtain ⟨rfl, -⟩ := List.cons.inj h
      have hzero := Nat.ofDigitChars_ten_toDigits (n := n / 10)
      rw [hd, toDigits_eq_zero_cons hd] at hzero
      have : n / 10 = 0 := hzero.symm
      omega
termination_by n

/-- The digits of a number are taken for the number. -/
theorem spanNumber_toDigits (negative : Bool) (n : Nat) {rest : List Char} (h : Breaks rest) :
    spanNumber negative (Nat.toDigits 10 n ++ rest) = some (.integer negative n, rest) := by
  have hdigits : ∀ c ∈ Nat.toDigits 10 n, c.isDigit = true :=
    fun _ hc => Nat.isDigit_of_mem_toDigits (by decide) (by decide) hc
  have hspan : spanDigits (Nat.toDigits 10 n ++ rest) = (Nat.toDigits 10 n, rest) :=
    spanDigits_append hdigits h
  have hvalue : ofDigits (Nat.toDigits 10 n) = n := Nat.ofDigitChars_ten_toDigits
  simp only [spanNumber, hspan, spanFraction_of_breaks h]
  split
  case h_1 hnil => exact absurd hnil Nat.toDigits_ne_nil
  case h_2 hzero => simpa using toDigits_eq_zero_cons hzero
  case h_3 => simp [spanExponent_of_breaks h, hvalue]

/-! ## Texts and their tokens -/

/-- The text is cut into the tokens, whatever text follows that does not go on with a number. -/
def Lexes (cs : List Char) (ts : List Token) : Prop :=
  ∀ rest, Breaks rest → lex (cs ++ rest) = (ts ++ ·) <$> lex rest

/-- A token is taken from where no blank stands, and the rest after it. -/
theorem lex_of_nextToken {c : Char} {cs rest : List Char} {t : Token} (hc : isBlank c = false)
    (h : nextToken (c :: cs) = some (t, rest)) : lex (c :: cs) = (t :: ·) <$> lex rest := by
  rw [lex, hc]
  simp only [Bool.false_eq_true, if_false]
  split <;> simp_all

namespace Lexes

variable {a b cs : List Char} {s ts : List Token} {c : Char} {t : Token}

/-- A text that is taken for one token, whatever breaks it off, stands for that token. -/
theorem token (hc : isBlank c = false)
    (h : ∀ rest, Breaks rest → nextToken (c :: (cs ++ rest)) = some (t, rest)) :
    Lexes (c :: cs) [t] := by
  intro rest hrest
  rw [List.cons_append, lex_of_nextToken hc (h rest hrest)]
  rfl

/-- A text that no number goes on with can follow any other. -/
theorem append (ha : Lexes a s) (hb : Lexes b ts) (hbreaks : ∀ rest, Breaks (b ++ rest)) :
    Lexes (a ++ b) (s ++ ts) := by
  intro rest hrest
  rw [List.append_assoc, ha _ (hbreaks rest), hb rest hrest]
  simp [Functor.map, Function.comp_def]

/-- Texts may start with blanks. -/
theorem blanks (hb : ∀ c ∈ b, isBlank c = true) (h : Lexes cs ts) : Lexes (b ++ cs) ts := by
  intro rest hrest
  induction b with
  | nil => exact h rest hrest
  | cons c b ih =>
    simp only [List.forall_mem_cons] at hb
    rw [List.cons_append, List.cons_append, lex, if_pos hb.1]
    exact ih hb.2

/-- A punctuation mark can stand before any text. -/
theorem mark (hc : isBlank c = false) (ht : ∀ rest, nextToken (c :: rest) = some (t, rest))
    (h : Lexes cs ts) : Lexes (c :: cs) (t :: ts) := by
  intro rest hrest
  rw [List.cons_append, lex_of_nextToken hc (ht _), h rest hrest]
  simp [Functor.map, Function.comp_def]

/-- So can a literal. -/
theorem literal (text : String) (h : Lexes cs ts) :
    Lexes (Text.Quoted.encode text.toList ++ cs) (.string (some text) :: ts) := by
  intro rest hrest
  have hnext : nextToken ('"' :: (text.toList.flatMap Text.Quoted.escape ++ '"' :: (cs ++ rest)))
      = some (.string (some text), cs ++ rest) := by
    simp [nextToken, Text.Quoted.scan_flatMap_escape, Text.Quoted.text?_pieceOf]
  simp only [Text.Quoted.encode, List.cons_append, List.append_assoc, List.nil_append]
  rw [lex_of_nextToken rfl hnext, h rest hrest]
  simp [Functor.map, Function.comp_def]

end Lexes

/-- A number is broken off by all characters that cannot continue one. -/
theorem breaks_cons {c : Char} {cs : List Char} (hdigit : c.isDigit = false)
    (hc : c ∉ ['.', 'e', 'E']) : Breaks (c :: cs) := by
  rintro _ ⟨⟩
  exact ⟨hdigit, hc⟩

/-- A digit starts a number. -/
theorem nextToken_of_isDigit {c : Char} {cs : List Char} (hc : c.isDigit = true) :
    nextToken (c :: cs) = (spanNumber false (c :: cs)).map fun p => (.number p.1, p.2) := by
  rw [nextToken]
  · cases spanNumber false (c :: cs) <;> rfl
  all_goals
    rintro rest ⟨⟩
    exact absurd hc (by decide)

/-- An integer is written as its token. -/
theorem lexes_integer (negative : Bool) (n : Nat) :
    Lexes (Number.integer negative n).chars [.number (.integer negative n)] := by
  cases negative with
  | true =>
    refine Lexes.token (c := '-') rfl fun rest hrest => ?_
    simp [nextToken, spanNumber_toDigits true n hrest]
  | false =>
    -- Without a sign the number starts with a digit, which is no blank.
    obtain ⟨c, cs, hdigits⟩ := List.exists_cons_of_ne_nil (Nat.toDigits_ne_nil (b := 10) (n := n))
    have hc : c.isDigit = true :=
      Nat.isDigit_of_mem_toDigits (b := 10) (n := n) (by decide) (by decide) (by simp [hdigits])
    have hblank : isBlank c = false := by
      refine Bool.eq_false_iff.2 fun h => ?_
      simp only [isBlank, Bool.or_eq_true, decide_eq_true_eq] at h
      obtain ((rfl | rfl) | rfl) | rfl := h <;> exact absurd hc (by decide)
    simp only [Number.chars, Bool.false_eq_true, if_false, List.nil_append, hdigits]
    refine Lexes.token hblank fun rest hrest => ?_
    have hnumber := spanNumber_toDigits false n hrest
    rw [hdigits] at hnumber
    rw [nextToken_of_isDigit hc, ← List.cons_append, hnumber]
    rfl

/-! ## The printers -/

namespace Lexes

variable {a b cs : List Char} {s ts : List Token}

theorem nil : Lexes [] [] := fun rest _ => by simp

theorem comma (ha : Lexes a s) (hb : Lexes b ts) : Lexes (a ++ ',' :: b) (s ++ .comma :: ts) :=
  ha.append (hb.mark rfl fun _ => rfl) fun _ => breaks_cons (by decide) (by decide)

/-- A member is written as its name, a colon and its value. -/
theorem member (name : String) (h : Lexes cs ts) :
    Lexes (Text.Quoted.encode name.toList ++ ':' :: cs) (.string (some name) :: .colon :: ts) :=
  (h.mark rfl fun _ => rfl).literal name

/-- An array is written between brackets. -/
theorem brackets (h : Lexes cs ts) :
    Lexes ('[' :: (cs ++ [']'])) (.openBracket :: (ts ++ [.closeBracket])) :=
  have hclose : Lexes [']'] [.closeBracket] := token rfl fun _ _ => rfl
  (h.append hclose fun _ => breaks_cons (by decide) (by decide)).mark rfl fun _ => rfl

/-- An object is written between braces. -/
theorem braces (h : Lexes cs ts) :
    Lexes ('\x7b' :: (cs ++ ['\x7d'])) (.openBrace :: (ts ++ [.closeBrace])) :=
  have hclose : Lexes ['\x7d'] [.closeBrace] := token rfl fun _ _ => rfl
  (h.append hclose fun _ => breaks_cons (by decide) (by decide)).mark rfl fun _ => rfl

/-- A text may start on a new line. -/
theorem newline (h : Lexes cs ts) (depth : Nat) : Lexes ((newline depth).toList ++ cs) ts := by
  refine h.blanks fun c hc => ?_
  simp only [Json.newline, String.toList_append, String.toList_ofList, List.mem_append,
    List.mem_replicate] at hc
  obtain hc | ⟨-, rfl⟩ := hc
  · obtain rfl : c = '\n' := by simpa using hc
    rfl
  · rfl

/-- A text may have its lines to itself. -/
theorem lines (h : Lexes cs ts) (inner outer : Nat) :
    Lexes ((Json.newline inner).toList ++ (cs ++ (Json.newline outer).toList)) ts := by
  have hend : Lexes (Json.newline outer).toList [] := by simpa using nil.newline outer
  have hbreaks (rest : List Char) : Breaks ((Json.newline outer).toList ++ rest) := by
    rw [Json.newline, String.toList_append]
    exact breaks_cons (by decide) (by decide)
  simpa using (h.append hend hbreaks).newline inner

end Lexes

/-- Elements are written as their tokens, with commas in between. -/
theorem lexes_elementChars {items : List Json} (h : ∀ v ∈ items, Lexes (chars v) (tokens v)) :
    Lexes (elementChars items) (elementTokens items) := by
  induction items with
  | nil => exact Lexes.nil
  | cons v vs ih =>
    simp only [List.forall_mem_cons] at h
    cases vs with
    | nil => exact h.1
    | cons w vs => exact h.1.comma (ih h.2)

/-- Members are written as their tokens, with commas in between. -/
theorem lexes_memberChars {members : List (String × Json)}
    (h : ∀ m ∈ members, Lexes (chars m.2) (tokens m.2)) :
    Lexes (memberChars members) (memberTokens members) := by
  induction members with
  | nil => exact Lexes.nil
  | cons m ms ih =>
    simp only [List.forall_mem_cons] at h
    cases ms with
    | nil => exact h.1.member m.1
    | cons n ms => exact (h.1.comma (ih h.2)).member m.1

/-- A document is printed as its tokens, by induction on the document. -/
theorem lexes_chars {j : Json} (h : j.Integral) : Lexes (chars j) (tokens j) := by
  induction h with
  | null => exact Lexes.token rfl fun _ _ => rfl
  | bool b => cases b <;> exact Lexes.token rfl fun _ _ => rfl
  | integer negative n => exact lexes_integer negative n
  | string text => simpa [chars, tokens] using Lexes.nil.literal text
  | array _ ih => exact (lexes_elementChars ih).brackets
  | object _ ih => exact (lexes_memberChars ih).braces

/-- Elements are written as their tokens also with each on a line of its own. -/
theorem lexes_prettyItems {items : List Json} {depth : Nat}
    (h : ∀ v ∈ items, Lexes (prettyAt depth v).toList (tokens v)) :
    Lexes (Text.joinWith ("," ++ newline depth) (prettyItems depth items)).toList
      (elementTokens items) := by
  induction items with
  | nil => simpa [prettyItems, Text.joinWith, elementTokens] using Lexes.nil
  | cons v vs ih =>
    simp only [List.forall_mem_cons] at h
    cases vs with
    | nil => simpa [prettyItems, Text.joinWith, elementTokens] using h.1
    | cons w vs =>
      rw [elementTokens_cons_cons]
      simpa [prettyItems, Text.joinWith] using h.1.comma ((ih h.2).newline depth)

/-- Members are written as their tokens also with each on a line of its own. -/
theorem lexes_prettyMembers {members : List (String × Json)} {depth : Nat}
    (h : ∀ m ∈ members, Lexes (prettyAt depth m.2).toList (tokens m.2)) :
    Lexes (Text.joinWith ("," ++ newline depth) (prettyMembers depth members)).toList
      (memberTokens members) := by
  induction members with
  | nil => simpa [prettyMembers, Text.joinWith, memberTokens] using Lexes.nil
  | cons m ms ih =>
    simp only [List.forall_mem_cons] at h
    -- There is a blank after the colon.
    have hvalue : Lexes ([' '] ++ (prettyAt depth m.2).toList) (tokens m.2) :=
      h.1.blanks (by simp [isBlank])
    cases ms with
    | nil =>
      simpa [prettyMembers, Text.joinWith, Text.quote, memberTokens] using hvalue.member m.1
    | cons n ms =>
      rw [memberTokens_cons_cons]
      simpa [prettyMembers, Text.joinWith, Text.quote]
        using (hvalue.comma ((ih h.2).newline depth)).member m.1

/-- A document is printed as the same tokens with lines, at any depth. -/
theorem lexes_prettyAt {j : Json} (h : j.Integral) (depth : Nat) :
    Lexes (prettyAt depth j).toList (tokens j) := by
  have hcompact {v : Json} (hv : v.Integral) : Lexes (compact v).toList (tokens v) := by
    simpa [compact] using lexes_chars hv
  induction h generalizing depth with
  | null => exact hcompact .null
  | bool b => exact hcompact (.bool b)
  | integer negative n => exact hcompact (.integer negative n)
  | string text => exact hcompact (.string text)
  | @array items _ ih =>
    cases items with
    -- Only arrays that have elements are spread over lines.
    | nil => simpa [prettyAt, tokens, elementTokens] using Lexes.nil.brackets
    | cons v vs =>
      have hitems := lexes_prettyItems fun w hw => ih w hw (depth + 1)
      simpa [prettyAt, tokens] using (hitems.lines (depth + 1) depth).brackets
  | @object members _ ih =>
    cases members with
    | nil => simpa [prettyAt, tokens, memberTokens] using Lexes.nil.braces
    | cons m ms =>
      have hmembers := lexes_prettyMembers fun n hn => ih n hn (depth + 1)
      simpa [prettyAt, tokens] using (hmembers.lines (depth + 1) depth).braces

/-! ## Reading the tokens -/

namespace Reading

/-- Reading the tokens leads from one state to another. -/
def Leads (r : Reading) (ts : List Token) (r' : Reading) : Prop := ts.foldlM step r = some r'

variable {r r' r'' : Reading} {s ts : List Token} {t : Token}

theorem Leads.nil : Leads r [] r := rfl

/-- A token is read before those that follow it. -/
theorem Leads.cons (h : step r t = some r') (hrest : Leads r' ts r'') : Leads r (t :: ts) r'' := by
  rw [Leads, List.foldlM_cons, h]
  exact hrest

/-- Tokens are read in a row. -/
theorem Leads.append (h : Leads r s r') (hrest : Leads r' ts r'') : Leads r (s ++ ts) r'' := by
  rw [Leads, List.foldlM_append, h]
  exact hrest

/-- A document is read from its tokens wherever a value has to come. -/
def Readable (j : Json) : Prop := ∀ begun, Leads ⟨.value, begun⟩ (tokens j) ⟨.follow j, begun⟩

/-- The elements of an array are read one after the other. -/
theorem leads_elementTokens {items : List Json} (hne : items ≠ []) (h : ∀ v ∈ items, Readable v)
    (done : List Json) (begun : List Begun) :
    Leads ⟨.value, .array done :: begun⟩ (elementTokens items ++ [.closeBracket])
      ⟨.follow (.array (done.reverse ++ items)), begun⟩ := by
  induction items generalizing done with
  | nil => exact absurd rfl hne
  | cons v vs ih =>
    simp only [List.forall_mem_cons] at h
    cases vs with
    | nil =>
      -- After an element comes the closing bracket or a comma.
      rw [← List.reverse_cons]
      exact (h.1 _).append (.cons rfl .nil)
    | cons w vs =>
      have hrest := ih (by simp) h.2 (v :: done)
      rw [List.reverse_cons, List.append_assoc] at hrest
      rw [elementTokens_cons_cons, List.append_assoc]
      exact (h.1 _).append (.cons (t := .comma) rfl hrest)

/-- What starts a value may start the first element of an array. -/
theorem leads_element {begun : List Begun} (j : Json)
    (h : Leads ⟨.value, begun⟩ (tokens j ++ ts) r) :
    Leads ⟨.element, begun⟩ (tokens j ++ ts) r := by
  have hstart : ∃ t rest, tokens j = t :: rest ∧ t ≠ .closeBracket := by
    cases j <;> exact ⟨_, _, rfl, nofun⟩
  obtain ⟨t, rest, htokens, ht⟩ := hstart
  have hstep : step ⟨.element, begun⟩ t = step ⟨.value, begun⟩ t := by
    simp only [step]
    split <;> simp_all
  rw [htokens, List.cons_append, Leads, List.foldlM_cons] at h ⊢
  rwa [hstep]

/-- A member as the reading keeps it. -/
def kept (m : String × Json) : Option String × Json := (some m.1, m.2)

/-- Members that have a name are all kept. -/
theorem mapM_kept {f : Option String × Json → Option (String × Json)}
    (hf : ∀ m, f (kept m) = some m) (members : List (String × Json)) :
    (members.map kept).mapM f = some members := by
  induction members with
  | nil => rfl
  | cons m ms ih => rw [List.map_cons, List.mapM_cons, hf, ih]; rfl

/-- An object is made of its members, all of which have a name. -/
theorem ofMembers_kept (members : List (String × Json)) :
    ofMembers (members.map kept) = .object members := by
  rw [ofMembers, mapM_kept fun _ => rfl]

theorem step_name (done : List (String × Json)) (begun : List Begun) (name : String) :
    step ⟨.name (done.map kept), begun⟩ (.string (some name))
      = some ⟨.colon (done.map kept) (some name), begun⟩ := by
  cases done <;> rfl

/-- The members of an object are read one after the other. -/
theorem leads_memberTokens {members : List (String × Json)} (hne : members ≠ [])
    (h : ∀ m ∈ members, Readable m.2) (done : List (String × Json)) (begun : List Begun) :
    Leads ⟨.name (done.map kept), begun⟩ (memberTokens members ++ [.closeBrace])
      ⟨.follow (.object (done.reverse ++ members)), begun⟩ := by
  induction members generalizing done with
  | nil => exact absurd rfl hne
  | cons m ms ih =>
    simp only [List.forall_mem_cons] at h
    cases ms with
    | nil =>
      rw [← List.reverse_cons, ← ofMembers_kept, List.map_reverse]
      -- After a member comes the closing brace or a comma.
      exact .cons (step_name done begun m.1) (.cons rfl ((h.1 _).append (.cons rfl .nil)))
    | cons n ms =>
      have hrest := ih (by simp) h.2 (m :: done)
      rw [List.reverse_cons, List.append_assoc] at hrest
      have hvalue := (h.1 (.object (done.map kept) (some m.1) :: begun)).append
        (.cons (t := .comma) rfl hrest)
      rw [memberTokens_cons_cons, List.cons_append, List.cons_append, List.append_assoc]
      exact .cons (step_name done begun m.1) (.cons rfl hvalue)

/-- A document is read from its tokens. -/
theorem readable {j : Json} (h : j.Integral) : Readable j := by
  intro begun
  induction h generalizing begun with
  | null => rfl
  | bool b => rfl
  | integer negative n => rfl
  | string text => rfl
  | @array items _ ih =>
    cases items with
    | nil => rfl
    | cons v vs =>
      -- The first token of an element shows that the array has not been closed at once.
      obtain ⟨rest, hrest⟩ := exists_elementTokens_cons v vs
      have hitems := leads_elementTokens (by simp) ih [] begun
      rw [hrest, List.append_assoc] at hitems
      rw [tokens, hrest, List.append_assoc]
      exact .cons rfl (leads_element v hitems)
  | @object members _ ih =>
    cases members with
    | nil => rfl
    | cons m ms => exact .cons rfl (leads_memberTokens (by simp) ih [] begun)

end Reading

/-! ## The round trip -/

/-- A text that stands for the tokens of a document is read as the document. -/
theorem parse?_of_lexes {text : String} {j : Json} (h : j.Integral)
    (htext : Lexes text.toList (tokens j)) : parse? text = some j := by
  have hlex : lex text.toList = some (tokens j) := by
    simpa [lex] using htext [] (by simp [Breaks])
  have hread : (tokens j).foldlM Reading.step Reading.start = some ⟨.follow j, []⟩ :=
    Reading.readable h []
  rw [parse?, hlex]
  simp [ofTokens?, hread, Reading.result]

/-- What is printed on one line is read back. -/
theorem parse?_compact {j : Json} (h : j.Integral) : parse? j.compact = some j :=
  parse?_of_lexes h (by simpa [compact] using lexes_chars h)

/-- What is printed over lines is read back. -/
theorem parse?_pretty {j : Json} (h : j.Integral) : parse? j.pretty = some j :=
  parse?_of_lexes h (lexes_prettyAt h 0)

end Marshal.Json
