import Marshal.Proofs.Stacks

/-!
# Reading back what was written

Every program of writes has a program of calls that mirrors it: a value is read by its own
primitive, raw bytes by their number, and a frame is read, gone through and dropped
(`Write.calls`). Made on a stack whose topmost reader is where the writes start, these calls
give back what was written (`Write.answers`), leave the frames at their ends
(`Write.frames`), and end where the writes do: `run_calls`.

Frames stand in one another to any depth, and so do the calls. What they do is told for one
list of calls at a time (`ReadsBack`), of which lists are put together (`ReadsBack.append`)
and put in frames (`ReadsBack.frame`).
-/

namespace Marshal.Wire

/-! ## Mirrored calls -/

namespace Write

mutual

/-- The calls that read a write back. -/
def calls : Write → List Call
  | .value p _ => [.value p]
  | .raw bytes => [.raw bytes.length]
  | .frame body => .frame :: (callsAll body ++ [.drop])
  | .message body => .messageFrame :: (callsAll body ++ [.drop])

/-- The calls that read writes back one after the other. -/
def callsAll : List Write → List Call
  | [] => []
  | w :: ws => w.calls ++ callsAll ws

end

mutual

/-- The answers to these calls: what was written, and that frames are entered and dropped. -/
def answers : Write → List Reply
  | .value p x => [.value p x]
  | .raw bytes => [.bytes bytes]
  | .frame body => .done :: (answersAll body ++ [.done])
  | .message body => .done :: (answersAll body ++ [.done])

/-- The answers to the calls of several writes. -/
def answersAll : List Write → List Reply
  | [] => []
  | w :: ws => w.answers ++ answersAll ws

end

mutual

/-- The frames of a write inside `depth` messages, in the order in which they are dropped.
    Each has been read to its end. -/
def frames (depth : Nat) : Write → List Reader
  | .value _ _ => []
  | .raw _ => []
  | .frame body => framesAll depth body ++ [⟨bytesAll body, (bytesAll body).length, depth⟩]
  | .message body =>
    framesAll (depth + 1) body ++ [⟨bytesAll body, (bytesAll body).length, depth + 1⟩]

/-- The frames of several writes. -/
def framesAll (depth : Nat) : List Write → List Reader
  | [] => []
  | w :: ws => w.frames depth ++ framesAll depth ws

end

mutual

/-- How deep messages are nested in a write. -/
def levels : Write → Nat
  | .value _ _ => 0
  | .raw _ => 0
  | .frame body => levelsAll body
  | .message body => levelsAll body + 1

/-- How deep messages are nested in several writes. -/
def levelsAll : List Write → Nat
  | [] => 0
  | w :: ws => max w.levels (levelsAll ws)

end

end Write

/-! ## Runs of calls -/

namespace Stack

/-- The readers that calls drop, as they are by then. -/
def dropped (s : Stack) : List Call → List Reader
  | [] => []
  | .drop :: calls => s.top :: (s.call .drop).2.dropped calls
  | c :: calls => (s.call c).2.dropped calls

/-- Replies to calls in a row are those to the first ones, and then to the others. -/
theorem run_append (s : Stack) (calls calls' : List Call) :
    s.run (calls ++ calls') = s.run calls ++ (s.after calls).run calls' := by
  induction calls generalizing s with
  | nil => rfl
  | cons c calls ih => exact congrArg (s.call c :: ·) (ih _)

/-- Other calls than `drop` do not drop anything. -/
theorem dropped_cons {c : Call} (hc : c ≠ .drop) (s : Stack) (calls : List Call) :
    s.dropped (c :: calls) = (s.call c).2.dropped calls := by
  cases c with
  | drop => exact absurd rfl hc
  | _ => rfl

/-- So are the frames that are dropped. -/
theorem dropped_append (s : Stack) (calls calls' : List Call) :
    s.dropped (calls ++ calls') = s.dropped calls ++ (s.after calls).dropped calls' := by
  induction calls generalizing s with
  | nil => rfl
  | cons c calls ih =>
    cases c with
    | drop => exact congrArg (s.top :: ·) (ih _)
    | _ => exact ih _

/-- The stack after its topmost reader has gone past `n` bytes. -/
def advance (s : Stack) (n : Nat) : Stack := { s with top := s.top.advance n }

/-- The stack after the frame of a payload has been read. -/
def enter (s : Stack) (payload : Bytes) (depth : Nat) : Stack :=
  ⟨⟨payload, 0, depth⟩, s.top.advance (framed payload).length :: s.below⟩

end Stack

/-- Made on the stack, the calls read back the bytes, and nothing else. -/
structure ReadsBack (s : Stack) (bytes : Bytes) (calls : List Call) (answers : List Reply)
    (frames : List Reader) : Prop where
  answers : (s.run calls).map Prod.fst = answers.map .ok
  dropped : s.dropped calls = frames
  after : s.after calls = s.advance bytes.length

namespace ReadsBack

variable {s : Stack}

theorem nil (s : Stack) : ReadsBack s [] [] [] [] := ⟨rfl, rfl, rfl⟩

/-- Programs in a row are read back one after the other. -/
theorem append {b₁ b₂ : Bytes} {c₁ c₂ : List Call} {a₁ a₂ : List Reply} {f₁ f₂ : List Reader}
    (h₁ : ReadsBack s b₁ c₁ a₁ f₁) (h₂ : ReadsBack (s.advance b₁.length) b₂ c₂ a₂ f₂) :
    ReadsBack s (b₁ ++ b₂) (c₁ ++ c₂) (a₁ ++ a₂) (f₁ ++ f₂) where
  answers := by
    rw [Stack.run_append, List.map_append, h₁.answers, h₁.after, h₂.answers, List.map_append]
  dropped := by rw [Stack.dropped_append, h₁.dropped, h₁.after, h₂.dropped]
  after := by
    rw [Stack.after_append, h₁.after, h₂.after, List.length_append]
    exact congrArg (Stack.mk · s.below) (Reader.advance_advance ..)

/-- A call that reads just the bytes from the topmost reader. -/
theorem read {bytes : Bytes} {c : Call} {answer : Reply} (hc : c ≠ .drop)
    (h : s.call c = (.ok answer, s.advance bytes.length)) : ReadsBack s bytes [c] [answer] [] where
  answers := by rw [Stack.run, h]; rfl
  dropped := Stack.dropped_cons hc s []
  after := by rw [Stack.after_cons, h]; rfl

/-- The payload of a frame is read back in the frame, which is dropped after it. -/
theorem frame {payload : Bytes} {c : Call} {calls : List Call} {answers : List Reply}
    {frames : List Reader} {depth : Nat} (hc : c ≠ .drop)
    (h : s.call c = (.ok .done, s.enter payload depth))
    (hbody : ReadsBack (s.enter payload depth) payload calls answers frames) :
    ReadsBack s (framed payload) (c :: (calls ++ [.drop])) (.done :: (answers ++ [.done]))
      (frames ++ [⟨payload, payload.length, depth⟩]) := by
  -- The reader below the frame is past it already, so dropping it is all that is left to do.
  have hend : (s.enter payload depth).after calls =
      ⟨⟨payload, payload.length, depth⟩, (s.advance (framed payload).length).top :: s.below⟩ := by
    rw [hbody.after, Stack.advance, Stack.enter, Reader.advance, Nat.zero_add]
    rfl
  refine ⟨?_, ?_, ?_⟩
  · rw [Stack.run, h, List.map_cons, Stack.run_append, List.map_append, hbody.answers, hend,
      List.map_cons, List.map_append]
    rfl
  · rw [Stack.dropped_cons hc, h, Stack.dropped_append, hbody.dropped, hend]
    rfl
  · rw [Stack.after_cons, h, Stack.after_append, hend]
    rfl

end ReadsBack

/-! ## Single calls -/

namespace Stack

variable {s : Stack} {tail : Bytes}

/-- A value is read back by its own primitive, with other bytes after it. -/
theorem call_value (p : Primitive) (x : p.Carrier) (hlength : (p.write x).length < 2 ^ 64)
    (hrest : s.top.rest = p.write x ++ tail) :
    s.call (.value p) = (.ok (.value p x), s.advance (p.write x).length) := by
  rw [call, reading, p.reads x hlength s.top tail hrest]
  rfl

theorem call_raw {bytes : Bytes} (hrest : s.top.rest = bytes ++ tail) :
    s.call (.raw bytes.length) = (.ok (.bytes bytes), s.advance bytes.length) := by
  rw [call, reading, reads_raw bytes s.top tail hrest]
  rfl

/-- A frame is entered with its payload. -/
theorem call_frame {payload : Bytes} (hlength : payload.length < 2 ^ 64)
    (hrest : s.top.rest = framed payload ++ tail) :
    s.call .frame = (.ok .done, s.enter payload s.top.depth) := by
  rw [call, entering, readFrame_apply hlength hrest]
  rfl

/-- The frame of a message is one level deeper than the reader, so there has to be one left. -/
theorem call_messageFrame {payload : Bytes} (hlength : payload.length < 2 ^ 64)
    (hrest : s.top.rest = framed payload ++ tail) (hdepth : s.top.depth < nestingLimit) :
    s.call .messageFrame = (.ok .done, s.enter payload (s.top.depth + 1)) := by
  rw [call, entering, readMessageFrame_apply hlength hrest hdepth]
  rfl

end Stack

/-! ## Programs of writes -/

mutual

/-- A write is read back by its calls. -/
theorem readsBack_calls (w : Write) {s : Stack} {tail : Bytes} (hlength : w.bytes.length < 2 ^ 64)
    (hlevels : s.top.depth + w.levels ≤ nestingLimit) (hrest : s.top.rest = w.bytes ++ tail) :
    ReadsBack s w.bytes w.calls w.answers (w.frames s.top.depth) := by
  match w with
  | .value p x => exact .read (by simp) (Stack.call_value p x hlength hrest)
  | .raw bytes => exact .read (by simp) (Stack.call_raw hrest)
  | .frame body =>
    have hpayload := lt_of_length_framed hlength
    exact .frame (by simp) (Stack.call_frame hpayload hrest)
      (readsBack_callsAll body hpayload hlevels (List.append_nil _).symm)
  | .message body =>
    have hpayload := lt_of_length_framed hlength
    rw [Write.levels] at hlevels
    exact .frame (by simp) (Stack.call_messageFrame hpayload hrest (by omega))
      (readsBack_callsAll body hpayload (by change s.top.depth + 1 + _ ≤ _; omega)
        (List.append_nil _).symm)

/-- Writes are read back by their calls one after the other. -/
theorem readsBack_callsAll (ws : List Write) {s : Stack} {tail : Bytes}
    (hlength : (Write.bytesAll ws).length < 2 ^ 64)
    (hlevels : s.top.depth + Write.levelsAll ws ≤ nestingLimit)
    (hrest : s.top.rest = Write.bytesAll ws ++ tail) :
    ReadsBack s (Write.bytesAll ws) (Write.callsAll ws) (Write.answersAll ws)
      (Write.framesAll s.top.depth ws) := by
  match ws with
  | [] => exact .nil s
  | w :: ws =>
    rw [Write.bytesAll, List.length_append] at hlength
    rw [Write.bytesAll, List.append_assoc] at hrest
    rw [Write.levelsAll] at hlevels
    have hhead := readsBack_calls w (by omega) (by omega) hrest
    have htail := @readsBack_callsAll ws (s.advance w.bytes.length) tail (by omega)
      (by change s.top.depth + _ ≤ _; omega) (Reader.rest_advance hrest)
    exact hhead.append htail

end

mutual

/-- The frames of a write are left at their ends. -/
theorem Write.atEnd_of_mem_frames {depth : Nat} {w : Write} {frame : Reader}
    (h : frame ∈ w.frames depth) : frame.atEnd = true := by
  match w with
  | .value _ _ | .raw _ => exact absurd h List.not_mem_nil
  | .frame body | .message body =>
    rcases List.mem_append.1 h with h | h
    · exact Write.atEnd_of_mem_framesAll h
    · cases List.mem_singleton.1 h
      simp [Reader.atEnd, Reader.remaining]

/-- So are those of several writes. -/
theorem Write.atEnd_of_mem_framesAll {depth : Nat} {ws : List Write} {frame : Reader}
    (h : frame ∈ Write.framesAll depth ws) : frame.atEnd = true := by
  match ws with
  | [] => exact absurd h List.not_mem_nil
  | w :: ws =>
    rcases List.mem_append.1 h with h | h
    · exact Write.atEnd_of_mem_frames h
    · exact Write.atEnd_of_mem_framesAll h

end

/-- The calls that mirror writes give back what was written, drop every frame at its end and at
    the depth of the messages around it, and leave the reader where the bytes after the writes
    start. Lengths are words of 64 bits, which no list of bytes in memory exceeds. -/
theorem run_calls (ws : List Write) (tail : Bytes) {s : Stack}
    (hlength : (Write.bytesAll ws).length < 2 ^ 64)
    (hlevels : s.top.depth + Write.levelsAll ws ≤ nestingLimit)
    (hrest : s.top.rest = Write.bytesAll ws ++ tail) :
    (s.run (Write.callsAll ws)).map Prod.fst = (Write.answersAll ws).map .ok ∧
      s.dropped (Write.callsAll ws) = Write.framesAll s.top.depth ws ∧
      (∀ frame ∈ s.dropped (Write.callsAll ws), frame.atEnd = true) ∧
      s.after (Write.callsAll ws) = s.advance (Write.bytesAll ws).length ∧
      (s.after (Write.callsAll ws)).top.rest = tail := by
  obtain ⟨hanswers, hdropped, hafter⟩ := readsBack_callsAll ws hlength hlevels hrest
  refine ⟨hanswers, hdropped, ?_, hafter, ?_⟩
  · rw [hdropped]
    intro frame hframe
    exact Write.atEnd_of_mem_framesAll hframe
  · rw [hafter]
    exact Reader.rest_advance hrest

end Marshal.Wire

namespace Marshal

open Wire

/-- A message that holds a text and a frame, with raw bytes and another message in it. -/
def Sample.crate : List Write :=
  [ .value .varI32 (-2 : Int32),
    .message [.value .string "egg", .frame [.raw [5, 6], .message []]], .value .bool true ]

open Sample

theorem bytesAll_crate :
    Write.bytesAll crate = [3, 8, 3, 101, 103, 103, 3, 5, 6, 0, 1] := by
  decide +kernel

theorem run_calls_crate :
    let s := Stack.ofBytes [3, 8, 3, 101, 103, 103, 3, 5, 6, 0, 1, 9]
    (s.run (Write.callsAll crate)).map Prod.fst =
        [ .ok (.value .varI32 (-2 : Int32)), .ok .done, .ok (.value .string "egg"), .ok .done,
          .ok (.bytes [5, 6]), .ok .done, .ok .done, .ok .done, .ok .done,
          .ok (.value .bool true) ] ∧
      s.dropped (Write.callsAll crate) =
        [⟨[], 0, 2⟩, ⟨[5, 6, 0], 3, 1⟩, ⟨[3, 101, 103, 103, 3, 5, 6, 0], 8, 1⟩] ∧
      (s.after (Write.callsAll crate)).top.rest = [9] := by
  intro s
  have hrest : s.top.rest = Write.bytesAll crate ++ [9] := by rw [bytesAll_crate]; rfl
  have hlength : (Write.bytesAll crate).length < 2 ^ 64 := by rw [bytesAll_crate]; decide
  obtain ⟨hanswers, hdropped, -, -, htail⟩ := run_calls crate [9] hlength (by decide) hrest
  refine ⟨hanswers, hdropped.trans ?_, htail⟩
  decide +kernel

end Marshal
