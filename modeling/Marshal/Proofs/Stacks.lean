import Marshal.Proofs.Scanning
import Marshal.Wire.Stack

/-!
# Calls on a stack of readers

A call may fail with part of its bytes read, and later calls go on from there. What holds
of a stack has therefore to hold after every call, whatever came of it:

* a reading that fails has gone forward too, and if it fails because the bytes end, the
  error tells how many were missing to those wanted at once (`Fails`);
* a call moves the topmost reader on, puts a frame on top or drops one (`Stack.Step`), and
  this is all that `Stack.step_call` leaves open;
* so readers stay inside their bytes, frames are pieces of the bytes below them
  (`Stack.Valid`), and every reader goes forward for as long as it is on the stack
  (`Stack.calls_keep_valid`).
-/

namespace Marshal.Wire

variable {ε α β : Type}

/-! ## Readings that fail -/

/-- The reader is `needed` bytes short of those wanted. -/
structure Reader.Lacks (r : Reader) (wanted offset needed : Nat) : Prop where
  offset : offset = r.index
  pos : 0 < needed
  /-- No more bytes are left than are wanted, so that one number could be taken from
      the other. -/
  exact : needed + r.remaining = wanted

/-- Where the reading fails, it has gone forward, and if the bytes end, it wanted `n` of
    them at once. -/
structure Fails (n : Nat) (m : WireReading α) : Prop where
  precedes : ∀ {r e r'}, m r = .error e r' → r.Precedes r'
  lacks : ∀ {r offset needed r'}, r.index ≤ r.data.length →
    m r = .error (.unexpectedEnd offset needed) r' → r'.Lacks n offset needed

namespace Fails

variable {n : Nat} {m : WireReading α}

/-- What never fails lacks nothing. -/
theorem pure (a : α) : Fails n (Pure.pure a : WireReading α) where
  precedes h := by cases h
  lacks _ h := by cases h

/-- An error that is not about the end of the bytes does not tell how many there are. -/
theorem throw {e : Error} (he : ∀ offset needed, e ≠ .unexpectedEnd offset needed) :
    Fails n (MonadExcept.throw e : WireReading α) where
  precedes {r _ _} h := by
    cases h
    exact .refl r
  lacks _ h := by
    cases h
    exact absurd rfl (he _ _)

/-- Readings in a row lack what one of them does. -/
theorem bind {f : α → WireReading β} (hm : Fails n m) (hscans : Scans m)
    (hf : ∀ a, Fails n (f a)) : Fails n (m >>= f) where
  precedes h := by
    rcases or_of_bind_error h with h | ⟨a, r₁, ha, hb⟩
    · exact hm.precedes h
    · exact (hscans.precedes ha).trans ((hf a).precedes hb)
  lacks hr h := by
    rcases or_of_bind_error h with h | ⟨a, r₁, ha, hb⟩
    · exact hm.lacks hr h
    · -- What has been read is inside the bytes, so the rest starts there as well.
      have hprecedes := hscans.precedes ha
      exact (hf a).lacks (hprecedes.data ▸ hprecedes.within hr) hb

theorem map {f : α → β} (hm : Fails n m) (hscans : Scans m) : Fails n (f <$> m) :=
  hm.bind hscans fun _ => .pure _

/-- The position may be looked at before reading. -/
theorem position {f : Nat → WireReading α} (h : ∀ start, Fails n (f start)) :
    Fails n (position >>= f) where
  precedes {r _ _} := (h r.index).precedes
  lacks {r _ _ _} := (h r.index).lacks

end Fails

/-- Reading a byte lacks one where there is none. -/
theorem fails_byte : Fails 1 readByte where
  precedes {r e r'} h := by
    rw [readByte] at h
    split at h <;> cases h
    exact .refl r
  lacks {r _ _ _} hr h := by
    rw [readByte] at h
    split at h <;> cases h
    rename_i hnone
    have hend : r.data.length ≤ r.index := List.getElem?_eq_none_iff.1 hnone
    have hleft : r.remaining = 0 := by rw [Reader.remaining]; omega
    exact ⟨rfl, by omega, by omega⟩

/-- Reading some number of bytes lacks as many where fewer are left. -/
theorem fails_raw (n : Nat) : Fails n (readRaw n) where
  precedes {r e r'} h := by
    rw [readRaw] at h
    split at h <;> cases h
    exact .refl r
  lacks _ h := by
    rw [readRaw] at h
    split at h <;> cases h
    exact ⟨rfl, by omega, by omega⟩

theorem fails_bool : Fails 1 readBool := by
  refine .position fun start => fails_byte.bind scans_byte fun b => ?_
  split
  · exact .pure _
  · split
    · exact .pure _
    · exact .throw (by simp)

/-- Reading a varint lacks one byte at a time. -/
theorem fails_groups (start bits limit groups : Nat) :
    Fails 1 (readGroups start bits limit groups) := by
  induction groups with
  | zero => exact .throw (by simp)
  | succ groups ih =>
    refine fails_byte.bind scans_byte fun b => ?_
    split
    · exact .throw (by simp)
    · split
      · exact .pure _
      · exact ih.map (scans_groups _ _ _ _)

theorem fails_varint (bits : Nat) : Fails 1 (readVarint bits) :=
  .position fun _ => fails_groups _ _ _ _

/-- Reading a length lacks a byte of it. A length that is too large is another error. -/
theorem fails_length : Fails 1 readLength := by
  refine .position fun start => (fails_varint 64).bind (scans_varint 64) fun length => ?_
  have hcheck : ∀ r : Reader, Fails 1 (if length ≤ r.remaining then Pure.pure length
      else MonadExcept.throw (.lengthOutOfBounds start length r.remaining) : WireReading Nat) := by
    intro r
    split
    · exact .pure _
    · exact .throw (by simp)
  exact ⟨fun {r _ _} => (hcheck r).precedes, fun {r _ _ _} => (hcheck r).lacks⟩

/-- A length that has been read can be met. -/
theorem remaining_of_readLength {r r' : Reader} {length : Nat} (h : readLength r = .ok length r') :
    length ≤ r'.remaining := by
  obtain ⟨start, r₁, hstart, h⟩ := exists_of_bind_ok h
  obtain ⟨n, r₂, hn, h⟩ := exists_of_bind_ok h
  change (if n ≤ r₂.remaining then _ else _ : WireReading Nat) r₂ = _ at h
  split at h <;> cases h
  assumption

/-- A byte string lacks nothing once its length is read. -/
theorem error_of_readBytes {r r' : Reader} {e : Error} (h : readBytes r = .error e r') :
    readLength r = .error e r' := by
  rcases or_of_bind_error h with h | ⟨length, r₁, hlength, hraw⟩
  · exact h
  · -- The bytes that were counted are there.
    rw [readRaw, if_pos (remaining_of_readLength hlength)] at hraw
    cases hraw

theorem fails_bytes : Fails 1 readBytes where
  precedes h := fails_length.precedes (error_of_readBytes h)
  lacks hr h := fails_length.lacks hr (error_of_readBytes h)

/-- The bytes wanted at once for a value of the kind. Those of lengths and varints are
    read one by one. -/
def Kind.stride (k : Kind) : Nat := k.width?.getD 1

/-- Reading a primitive lacks what it takes at a time: one byte, or the width. -/
theorem fails_primitive (p : Primitive) : Fails p.kind.stride p.read := by
  cases p with
  | bool => exact fails_bool
  | varU32 | varU64 | varI32 | varI64 => exact (fails_varint _).map (scans_varint _)
  | fixedU32 | fixedI32 | fixedU64 | fixedI64 | f32 | f64 =>
    exact ((fails_raw _).map (scans_raw _)).map (scans_raw _).map
  | string =>
    refine .position fun start => fails_bytes.bind scans_bytes fun b => ?_
    split
    · exact .pure _
    · exact .throw (by simp)
  | bytes => exact fails_bytes

/-- Going past a value lacks what reading one does. -/
theorem fails_skip (k : Kind) : Fails k.stride (skip k) := by
  cases k with
  | signedVarint | unsignedVarint => exact (fails_varint 64).map (scans_varint 64)
  | fixed32 | fixed64 => exact (fails_raw _).map (scans_raw _)
  | bytes | nested => exact fails_bytes.map scans_bytes

theorem error_of_readFrame {r r' : Reader} {e : Error} (h : readFrame r = .error e r') :
    readBytes r = .error e r' := by
  rcases or_of_bind_error h with h | ⟨_, _, _, h⟩
  · exact h
  · cases h

/-- Reading a frame lacks a byte of its length. -/
theorem fails_frame : Fails 1 readFrame where
  precedes h := fails_bytes.precedes (error_of_readFrame h)
  lacks hr h := fails_bytes.lacks hr (error_of_readFrame h)

theorem fails_messageFrame : Fails 1 readMessageFrame := by
  have hlevel : ∀ r : Reader, Fails 1 (if nestingLimit ≤ r.depth then
      MonadExcept.throw (.nestingLimit r.index nestingLimit)
      else do return { ← readFrame with depth := r.depth + 1 } : WireReading Reader) := by
    intro r
    split
    · exact .throw (by simp)
    · exact fails_frame.map scans_frame
  exact ⟨fun {r _ _} => (hlevel r).precedes, fun {r _ _ _} => (hlevel r).lacks⟩

/-! ## Frames -/

namespace Reader

/-- Having read a frame, a reader `r` has become `outer`. -/
structure Enters (r outer frame : Reader) : Prop where
  precedes : r.Precedes outer
  start : frame.index = 0
  /-- The frame is a piece of the bytes, up to where the reader is now. -/
  piece : frame.data <:+ outer.data.take outer.index
  /-- It is made of bytes that were not read before. -/
  fresh : r.index + frame.data.length ≤ outer.index

end Reader

/-- A frame is inside of the bytes around it, before where the reader goes on. -/
theorem enters_of_readFrame {r outer frame : Reader} (h : readFrame r = .ok frame outer) :
    r.Enters outer frame ∧ frame.depth = r.depth := by
  obtain ⟨payload, r₁, hbytes, h⟩ := exists_of_bind_ok h
  cases h
  have hprecedes := scans_bytes.precedes hbytes
  obtain ⟨length, r₂, hlength, hraw⟩ := exists_of_bind_ok hbytes
  obtain ⟨hle, rfl, rfl⟩ := readRaw_eq_ok.1 hraw
  refine ⟨⟨hprecedes, rfl, ?_, ?_⟩, hprecedes.depth⟩
  · -- The bytes of the frame come after those that have been read.
    exact ⟨r₂.data.take r₂.index, List.take_add.symm⟩
  · have hindex := (scans_length.precedes hlength).le
    change r.index + (r₂.rest.take length).length ≤ r₂.index + length
    rw [List.length_take]
    omega

/-- The frame of a message is one level deeper, within the limit. -/
theorem enters_of_readMessageFrame {r outer frame : Reader}
    (h : readMessageFrame r = .ok frame outer) :
    r.Enters outer frame ∧ frame.depth = r.depth + 1 ∧ r.depth < nestingLimit := by
  change (if nestingLimit ≤ r.depth then _ else _ : WireReading Reader) r = _ at h
  split at h
  · cases h
  · rename_i hlevel
    obtain ⟨inner, r₁, hframe, h⟩ := exists_of_bind_ok h
    cases h
    obtain ⟨⟨hprecedes, hstart, hpiece, hfresh⟩, -⟩ := enters_of_readFrame hframe
    exact ⟨⟨hprecedes, hstart, hpiece, hfresh⟩, rfl, by omega⟩

/-- Where a reading stops, whether it succeeds or fails. -/
def stop : EStateM.Result ε Reader α → Reader
  | .ok _ r => r
  | .error _ r => r

/-- A reading goes forward, whether it succeeds or fails. -/
theorem precedes_stop {n : Nat} {m : WireReading α} (hscans : Scans m) (hfails : Fails n m)
    (r : Reader) : r.Precedes (stop (m r)) := by
  cases h : m r with
  | ok a r' => exact hscans.precedes h
  | error e r' => exact hfails.precedes h

/-- Whatever is read of a message, it is the reading of its frame that moves the reader. -/
theorem stop_readMessage (body : WireReading α) (r : Reader) :
    stop (readMessage body r) = stop (readMessageFrame r) := by
  cases h : readMessageFrame r with
  | ok frame outer =>
    rw [readMessage, bind_of_ok h, within]
    split <;> rfl
  | error e r' => rw [readMessage, bind_of_error h]; rfl

/-! ## Steps -/

namespace Stack

/-- What a call does to a stack. -/
inductive Step (s : Stack) : Call → Except Error Reply → Stack → Prop
  /-- The topmost reader moves on. A frame is not put on top if it could not be read. -/
  | read {c : Call} {answer : Except Error Reply} {top : Reader} : c ≠ .drop →
    (c = .frame ∨ c = .messageFrame → ∃ e, answer = .error e) → s.top.Precedes top →
    Step s c answer ⟨top, s.below⟩
  | frame {outer frame : Reader} : s.top.Enters outer frame → frame.depth = s.top.depth →
    Step s .frame (.ok .done) ⟨frame, outer :: s.below⟩
  | messageFrame {outer frame : Reader} : s.top.Enters outer frame →
    frame.depth = s.top.depth + 1 → s.top.depth < nestingLimit →
    Step s .messageFrame (.ok .done) ⟨frame, outer :: s.below⟩
  | drop {r : Reader} {below : List Reader} : s.below = r :: below →
    Step s .drop (.ok .done) ⟨r, below⟩
  /-- The last reader is kept. -/
  | keep : s.below = [] → Step s .drop (.ok .done) s

/-- The stack after calls one after the other. -/
def after (s : Stack) (calls : List Call) : Stack := calls.foldl (fun s c => (s.call c).2) s

theorem after_cons (s : Stack) (c : Call) (calls : List Call) :
    s.after (c :: calls) = (s.call c).2.after calls := rfl

theorem after_append (s : Stack) (calls calls' : List Call) :
    s.after (calls ++ calls') = (s.after calls).after calls' := List.foldl_append

section Calls

variable {s : Stack}

/-- A reading moves the topmost reader only. -/
theorem reading_snd (s : Stack) (m : WireReading α) (reply : α → Reply) :
    (s.reading m reply).2 = ⟨stop (m s.top), s.below⟩ := by
  rw [reading]
  split <;> rename_i h <;> rw [h] <;> rfl

/-- A call that neither enters nor leaves a frame moves the topmost reader forward. -/
theorem step_reading {m : WireReading α} {reply : α → Reply} {c : Call} (hdrop : c ≠ .drop)
    (henter : ¬(c = .frame ∨ c = .messageFrame)) (h : s.top.Precedes (stop (m s.top))) :
    s.Step c (s.reading m reply).1 (s.reading m reply).2 := by
  rw [reading_snd]
  exact .read hdrop (absurd · henter) h

/-- Entering a frame puts a reader on top, or fails and moves the topmost one forward. -/
theorem step_frame (s : Stack) :
    s.Step .frame (s.entering readFrame).1 (s.entering readFrame).2 := by
  rw [entering]
  split
  · rename_i h
    obtain ⟨henters, hdepth⟩ := enters_of_readFrame h
    exact .frame henters hdepth
  · rename_i h
    exact .read (by simp) (fun _ => ⟨_, rfl⟩) (fails_frame.precedes h)

/-- So does entering the frame of a message. -/
theorem step_messageFrame (s : Stack) :
    s.Step .messageFrame (s.entering readMessageFrame).1 (s.entering readMessageFrame).2 := by
  rw [entering]
  split
  · rename_i h
    obtain ⟨henters, hdepth, hlevel⟩ := enters_of_readMessageFrame h
    exact .messageFrame henters hdepth hlevel
  · rename_i h
    exact .read (by simp) (fun _ => ⟨_, rfl⟩) (fails_messageFrame.precedes h)

/-- Every call makes a step. -/
theorem step_call (s : Stack) (c : Call) : s.Step c (s.call c).1 (s.call c).2 := by
  cases c with
  | value p =>
    exact step_reading (by simp) (by simp) (precedes_stop (scans_primitive p) (fails_primitive p) _)
  | byte => exact step_reading (by simp) (by simp) (precedes_stop scans_byte fails_byte _)
  | length => exact step_reading (by simp) (by simp) (precedes_stop scans_length fails_length _)
  | raw n => exact step_reading (by simp) (by simp) (precedes_stop (scans_raw n) (fails_raw n) _)
  | skip k => exact step_reading (by simp) (by simp) (precedes_stop (scans_skip k) (fails_skip k) _)
  | frame => exact step_frame s
  | messageFrame => exact step_messageFrame s
  | message take =>
    refine step_reading (by simp) (by simp) ?_
    -- The body of a message is read in a frame of its own, so only the frame counts.
    rw [stop_readMessage]
    exact precedes_stop scans_messageFrame fails_messageFrame _
  | drop =>
    change s.Step .drop (.ok .done) s.dropTop
    -- The last reader is never dropped.
    rw [dropTop]
    split
    · exact .keep ‹_›
    · exact .drop ‹_›
  | data => exact .read (by simp) (by simp) (.refl s.top)

end Calls

/-! ## Valid stacks -/

/-- A stack whose last reader is one of `data`. -/
structure Valid (data : Bytes) (s : Stack) : Prop where
  readers : ∀ r ∈ s.top :: s.below, r.index ≤ r.data.length ∧ r.depth ≤ nestingLimit
  /-- Each reader stands in a frame that the one below it has just read. -/
  frames : (s.top :: s.below).IsChain fun frame outer =>
    frame.data <:+ outer.data.take outer.index ∧
      (frame.depth = outer.depth ∨ frame.depth = outer.depth + 1)
  last : ∃ r, (s.top :: s.below).getLast? = some r ∧ r.data = data ∧ r.depth = 0

/-- A stack starts with one reader at the start of the bytes. -/
theorem valid_ofBytes (data : Bytes) : (ofBytes data).Valid data where
  readers := by simp [ofBytes, Reader.ofBytes]
  frames := .singleton _
  last := ⟨_, rfl, rfl, rfl⟩

section Steps

variable {data : Bytes} {s s' : Stack} {c : Call} {answer : Except Error Reply}

/-- A frame does not depend on how far the reader in it has come. -/
theorem Valid.move (h : s.Valid data) {top : Reader} (htop : s.top.Precedes top) :
    Valid data ⟨top, s.below⟩ := by
  obtain ⟨top₀, below⟩ := s
  obtain ⟨hreaders, hframes, r, hlast, hdata, hdepth⟩ := h
  -- Only the topmost reader moves. It may be the only one, which has all bytes.
  have hin := hreaders top₀ List.mem_cons_self
  refine ⟨?_, ?_, ?_⟩
  · rw [List.forall_mem_cons] at hreaders ⊢
    exact ⟨⟨htop.data ▸ htop.within hin.1, htop.depth ▸ hin.2⟩, hreaders.2⟩
  · cases below with
    | nil => exact .singleton top
    | cons outer below =>
      rw [List.isChain_cons_cons] at hframes ⊢
      rwa [htop.data, htop.depth]
  · cases below with
    | nil =>
      cases hlast
      exact ⟨top, rfl, htop.data.trans hdata, htop.depth.trans hdepth⟩
    | cons outer below => exact ⟨_, hlast, hdata, hdepth⟩

/-- Entering a frame keeps a stack valid. -/
theorem Valid.enter (h : s.Valid data) {outer frame : Reader} (henters : s.top.Enters outer frame)
    (hdepth : frame.depth = outer.depth ∨ frame.depth = outer.depth + 1)
    (hlimit : frame.depth ≤ nestingLimit) : Valid data ⟨frame, outer :: s.below⟩ := by
  obtain ⟨hreaders, hframes, hlast⟩ := h.move henters.precedes
  have hframe : frame.index ≤ frame.data.length := henters.start ▸ Nat.zero_le _
  exact ⟨List.forall_mem_cons.2 ⟨⟨hframe, hlimit⟩, hreaders⟩,
    .cons_cons ⟨henters.piece, hdepth⟩ hframes, hlast⟩

/-- Leaving a frame keeps a stack valid. -/
theorem Valid.drop (h : s.Valid data) {r : Reader} {below : List Reader}
    (hbelow : s.below = r :: below) : Valid data ⟨r, below⟩ := by
  obtain ⟨hreaders, hframes, hlast⟩ := h
  rw [hbelow] at hreaders hframes hlast
  exact ⟨(List.forall_mem_cons.1 hreaders).2, hframes.of_cons, hlast⟩

/-- No step makes a stack invalid. -/
theorem Step.valid (h : s.Step c answer s') (hs : s.Valid data) : s'.Valid data := by
  cases h with
  | read _ _ htop => exact hs.move htop
  | frame henters hdepth =>
    have houter := henters.precedes.depth
    have hlimit := (hs.readers s.top List.mem_cons_self).2
    exact hs.enter henters (.inl (by omega)) (by omega)
  | messageFrame henters hdepth hlevel =>
    have houter := henters.precedes.depth
    exact hs.enter henters (.inr (by omega)) (by omega)
  | drop hbelow => exact hs.drop hbelow
  | keep => exact hs

/-- No sequence of calls makes a stack invalid. -/
theorem Valid.after (h : s.Valid data) (calls : List Call) : (s.after calls).Valid data :=
  List.foldlRecOn calls _ h fun s hs c _ => (step_call s c).valid hs

/-! ## Positions -/

/-- The position of the topmost reader, counted from the bottom. -/
def height (s : Stack) : Nat := s.below.length

/-- The reader at a position, counted from the bottom. -/
def reader? (s : Stack) (i : Nat) : Option Reader := (s.top :: s.below).reverse[i]?

/-- The topmost reader is at the height of the stack. -/
theorem reader?_height (s : Stack) : s.reader? s.height = some s.top := by
  simp [reader?, height]

/-- Readers do not depend on what is put on top of them. -/
theorem reader?_push {i : Nat} {below : List Reader} (hi : i ≤ below.length) (r frame : Reader) :
    (Stack.mk frame (r :: below)).reader? i = (Stack.mk r below).reader? i := by
  have hlength : i < (r :: below).reverse.length := by
    rw [List.length_reverse, List.length_cons]
    exact Nat.lt_succ_of_le hi
  rw [reader?, List.reverse_cons, List.getElem?_append_left hlength, reader?]

/-- Nor do those below the topmost one depend on it. -/
theorem reader?_move {i : Nat} (hi : i < s.height) (top : Reader) :
    (Stack.mk top s.below).reader? i = s.reader? i := by
  obtain ⟨top₀, below⟩ := s
  cases below with
  | nil => exact absurd hi (Nat.not_lt_zero i)
  | cons r below =>
    rw [reader?_push (Nat.le_of_lt_succ hi), reader?_push (Nat.le_of_lt_succ hi)]

/-- There is a reader at every height up to that of the stack. -/
theorem exists_reader? {i : Nat} (hi : i ≤ s.height) : ∃ r, s.reader? i = some r := by
  refine ⟨_, List.getElem?_eq_getElem ?_⟩
  rw [List.length_reverse, List.length_cons]
  exact Nat.lt_succ_of_le hi

/-- A call leaves the readers below the topmost one as they are. -/
theorem Step.reader?_eq (h : s.Step c answer s') {i : Nat} (hi : i < s.height) :
    s'.reader? i = s.reader? i := by
  cases h with
  | read => exact reader?_move hi _
  | frame | messageFrame =>
    rw [reader?_push (Nat.le_of_lt hi)]
    exact reader?_move hi _
  | @drop r below hbelow =>
    obtain ⟨top, _⟩ := s
    cases hbelow
    exact (reader?_push (Nat.le_of_lt_succ hi) r top).symm
  | keep => rfl

/-- A call that leaves a reader on the stack moves it on, if at all. -/
theorem Step.reader?_precedes (h : s.Step c answer s') {i : Nat} (hi : i ≤ s.height)
    (hi' : i ≤ s'.height) :
    ∃ r r', s.reader? i = some r ∧ s'.reader? i = some r' ∧ r.Precedes r' := by
  rcases Nat.lt_or_eq_of_le hi with hi | rfl
  · obtain ⟨r, hr⟩ := exists_reader? (Nat.le_of_lt hi)
    exact ⟨r, r, hr, (h.reader?_eq hi).trans hr, .refl r⟩
  · -- Only the topmost reader moves, and it stays where it was in the stack.
    refine ⟨s.top, ?_⟩
    cases h with
    | read _ _ htop => exact ⟨_, reader?_height s, reader?_height _, htop⟩
    | frame henters | messageFrame henters =>
      refine ⟨_, reader?_height s, ?_, henters.precedes⟩
      rw [height, reader?_push (Nat.le_refl _)]
      exact reader?_height _
    | drop hbelow =>
      rw [height, height, hbelow] at hi'
      exact absurd hi' (Nat.not_succ_le_self _)
    | keep => exact ⟨_, reader?_height s, reader?_height s, .refl _⟩

/-- While calls are made on frames above a reader, it stays as it is. -/
theorem reader?_after_eq {calls : List Call} {i : Nat}
    (h : ∀ k < calls.length, i < (s.after (calls.take k)).height) :
    (s.after calls).reader? i = s.reader? i := by
  induction calls generalizing s with
  | nil => rfl
  | cons c calls ih =>
    have hhead := h 0 (Nat.succ_pos _)
    have htail := ih fun k hk => h (k + 1) (Nat.succ_lt_succ hk)
    rw [after_cons, htail, (step_call s c).reader?_eq hhead]

/-- While a reader is on the stack, it goes forward. -/
theorem reader?_after_precedes {calls : List Call} {i : Nat}
    (h : ∀ k ≤ calls.length, i ≤ (s.after (calls.take k)).height) :
    ∃ r r', s.reader? i = some r ∧ (s.after calls).reader? i = some r' ∧ r.Precedes r' := by
  induction calls generalizing s with
  | nil =>
    obtain ⟨r, hr⟩ := exists_reader? (h 0 (Nat.le_refl _))
    exact ⟨r, r, hr, hr, .refl r⟩
  | cons c calls ih =>
    -- One step first, then the rest by induction.
    have hhead := h 0 (Nat.zero_le _)
    have hnext := h 1 (Nat.succ_le_succ (Nat.zero_le _))
    obtain ⟨r, r₁, hr, hr₁, hprecedes⟩ := (step_call s c).reader?_precedes hhead hnext
    obtain ⟨r₁', r', hr₁', hr', hprecedes'⟩ := ih fun k hk => h (k + 1) (Nat.succ_le_succ hk)
    cases hr₁.symm.trans hr₁'
    exact ⟨r, r', hr, hr', hprecedes.trans hprecedes'⟩

end Steps

end Stack

/-! ## Missing bytes -/

/-- The bytes that a call wants at once from the reader. -/
def Call.wanted : Call → Nat
  | .value p => p.kind.stride
  | .skip k => k.stride
  | .raw n => n
  | _ => 1

namespace Stack

section Lacks

variable {s : Stack} {offset needed : Nat}

/-- A call that reads lacks what its reading does. -/
theorem lacks_reading {n : Nat} {m : WireReading α} {reply : α → Reply} (hm : Fails n m)
    (hs : s.top.index ≤ s.top.data.length)
    (h : (s.reading m reply).1 = .error (.unexpectedEnd offset needed)) :
    (s.reading m reply).2.top.Lacks n offset needed := by
  rw [reading] at h ⊢
  split at h <;> cases h
  exact hm.lacks hs ‹_›

/-- A call that enters a frame lacks what reading the frame does. -/
theorem lacks_entering {n : Nat} {m : WireReading Reader} (hm : Fails n m)
    (hs : s.top.index ≤ s.top.data.length)
    (h : (s.entering m).1 = .error (.unexpectedEnd offset needed)) :
    (s.entering m).2.top.Lacks n offset needed := by
  rw [entering] at h ⊢
  split at h <;> cases h
  exact hm.lacks hs ‹_›

/-- The bytes of a message can end before its frame is read, or inside it. -/
theorem lacks_message {take : Nat} (hs : s.top.index ≤ s.top.data.length)
    (h : (s.call (.message take)).1 = .error (.unexpectedEnd offset needed)) :
    (s.call (.message take)).2.top.Lacks 1 offset needed ∨
      ∃ frame, s.top.Enters (s.call (.message take)).2.top frame ∧
        frame.Lacks take offset needed := by
  rw [call, reading] at h ⊢
  split at h <;> cases h
  rename_i r hmessage
  -- Bytes may be missing of the frame, or inside of it.
  rcases or_of_bind_error hmessage with hframe | ⟨frame, outer, hframe, hbody⟩
  · exact .inl (fails_messageFrame.lacks hs hframe)
  · rw [within] at hbody
    split at hbody <;> cases hbody
    rename_i hbody
    refine .inr ⟨frame, (enters_of_readMessageFrame hframe).1, ?_⟩
    rcases or_of_bind_error hbody with hraw | ⟨_, _, _, hrest⟩
    · rw [readRaw] at hraw
      split at hraw <;> cases hraw
      exact ⟨rfl, by omega, by omega⟩
    · cases hrest

/-- A call that finds the bytes at their end tells how many it lacks. -/
theorem lacks_call (hs : s.top.index ≤ s.top.data.length) {c : Call}
    (h : (s.call c).1 = .error (.unexpectedEnd offset needed)) :
    (s.call c).2.top.Lacks c.wanted offset needed ∨
      ∃ take frame, c = .message take ∧ s.top.Enters (s.call c).2.top frame ∧
        frame.Lacks take offset needed := by
  cases c with
  | value p => exact .inl (lacks_reading (fails_primitive p) hs h)
  | byte => exact .inl (lacks_reading fails_byte hs h)
  | length => exact .inl (lacks_reading fails_length hs h)
  | raw n => exact .inl (lacks_reading (fails_raw n) hs h)
  | skip k => exact .inl (lacks_reading (fails_skip k) hs h)
  | frame => exact .inl (lacks_entering fails_frame hs h)
  | messageFrame => exact .inl (lacks_entering fails_messageFrame hs h)
  | message take =>
    rcases lacks_message hs h with hlacks | ⟨frame, henters, hlacks⟩
    · exact .inl hlacks
    · exact .inr ⟨take, frame, rfl, henters, hlacks⟩
  | drop | data => cases h

end Lacks

/-! ## Runs -/

/-- Whatever calls were made before, the stack is valid, and every call makes a step. A call
    that finds too few bytes had wanted more than there were. No reading of a message moves
    the reader further than past its frame. Readers go forward while they are on the stack,
    and do not move while calls are made on frames above them. -/
theorem calls_keep_valid (data : Bytes) (before : List Call) :
    let s := (ofBytes data).after before
    s.Valid data ∧
      (∀ c, s.Step c (s.call c).1 (s.call c).2) ∧
      (∀ c offset needed, (s.call c).1 = .error (.unexpectedEnd offset needed) →
        (s.call c).2.top.Lacks c.wanted offset needed ∨
          ∃ take frame, c = .message take ∧ s.top.Enters (s.call c).2.top frame ∧
            frame.Lacks take offset needed) ∧
      (∀ (α : Type) (body : WireReading α),
        stop (readMessage body s.top) = stop (readMessageFrame s.top)) ∧
      ∀ calls i,
        ((∀ k ≤ calls.length, i ≤ (s.after (calls.take k)).height) →
          ∃ r r', s.reader? i = some r ∧ (s.after calls).reader? i = some r' ∧
            r.Precedes r') ∧
        ((∀ k < calls.length, i < (s.after (calls.take k)).height) →
          (s.after calls).reader? i = s.reader? i) := by
  intro s
  have hvalid : s.Valid data := (valid_ofBytes data).after before
  refine ⟨hvalid, s.step_call, ?_, ?_, ?_⟩
  · intro c offset needed h
    exact lacks_call (hvalid.readers s.top List.mem_cons_self).1 h
  · intro α body
    exact stop_readMessage body s.top
  · intro calls i
    exact ⟨reader?_after_precedes, reader?_after_eq⟩

end Stack

end Marshal.Wire
