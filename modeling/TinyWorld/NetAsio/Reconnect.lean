import TinyWorld.NetAsio.Client

/-! # One connection after the other

The read buffer outlives a connection. As long as every connection finds it
empty, and reads deliver nothing of an earlier connection, it holds what the
current stream has left of its whole frames. -/
namespace TinyWorld.NetAsio.Client
open TinyWorld.Lib.Framing TinyWorld.Lib.Run

/-- What was handed over since the connection was made are the whole frames of
its own stream, the buffer holds the rest of that stream, and a header is
refused only if it is there. -/
structure Isolated (s : Client) : Prop where
  frames : format.Splits s.stream (s.conn.handed.drop s.base) s.conn.readbuf
  refusal : s.refused = true → format.Refused s.conn.readbuf

/-- A connection finds an empty buffer, and a read that delivers bytes was
started on the current connection. -/
def Undisturbed (s : Client) : Event → Prop
  | .connected true => s.conn.readbuf = []
  | .read k (.data _) => k = s.number
  | _ => True

/-- The invariant of the undisturbed runs. -/
structure Separate (s : Client) : Prop where
  isolated : s.Isolated
  before : s.base ≤ s.conn.handed.length
  handler : s.conn.messageHandler = true

variable {s s' : Client}

/-- Only the streams, the buffer and what was handed over count. -/
theorem Separate.congr (h : Separate s) (hstream : s'.stream = s.stream) (hbase : s'.base = s.base)
    (hrefused : s'.refused = s.refused) (hhanded : s'.conn.handed = s.conn.handed)
    (hreadbuf : s'.conn.readbuf = s.conn.readbuf)
    (hhandler : s'.conn.messageHandler = s.conn.messageHandler) : Separate s' := by
  refine ⟨⟨?_, ?_⟩, ?_, ?_⟩
  · rw [hstream, hbase, hhanded, hreadbuf]
    exact h.isolated.frames
  · rw [hrefused, hreadbuf]
    exact h.isolated.refusal
  · rw [hbase, hhanded]
    exact h.before
  · rw [hhandler]
    exact h.handler

theorem Separate.setState (h : Separate s) (state : ConnectionState) :
    Separate (s.setState state) :=
  h.congr rfl rfl rfl rfl rfl rfl

theorem Separate.send (h : Separate s) (fresh : Nat → UInt8) (proto : Proto) :
    Separate (s.send fresh proto) := by
  have hconn : (s.conn.send fresh proto).1 = s.conn ∨
      (s.conn.send fresh proto).1 = s.conn.asyncWrite (Connection.frame fresh proto) := by
    unfold Connection.send
    split
    · exact .inl rfl
    · exact .inr rfl
  unfold Client.send
  rcases hconn with hc | hc <;> rw [hc] <;> exact h.congr rfl rfl rfl rfl rfl rfl

/-- A new stream begins, with nothing in the buffer. -/
theorem Separate.handleConnect (h : Separate s) {ok : Bool}
    (hempty : ok = true → s.conn.readbuf = []) :
    Separate (s.handleConnect ok) := by
  cases ok with
  | false => exact h.setState .closed
  | true =>
    have hbuf := hempty rfl
    have hnew : Separate s.established := by
      refine ⟨⟨?_, fun hr => by cases hr⟩, Nat.le_refl _, h.handler⟩
      simp only [established, List.drop_length, hbuf]
      exact .nil (.inl format.headerLen_pos)
    exact hnew.congr rfl rfl rfl rfl rfl rfl

/-- The bytes of the current stream are split further. -/
theorem Separate.handleData (h : Separate s) (chunk : Bytes) :
    Separate ((s.received s.number chunk).handleData chunk) := by
  obtain ⟨fs, rest, hs⟩ := format.exists_splits (s.conn.readbuf ++ chunk)
  have hreceived : s.received s.number chunk = { s with stream := s.stream ++ chunk } := if_pos rfl
  have hframes : format.Splits (s.stream ++ chunk) ((s.conn.handed ++ fs).drop s.base) rest := by
    rw [List.drop_append_of_le_length h.before]
    exact h.isolated.frames.append hs
  have hrefusal : s.refused = true → format.Refused rest := by
    intro hr
    have hbuf := (h.isolated.refusal hr).append chunk
    obtain ⟨-, rfl⟩ := hs.unique (.nil (.inr (.inl hbuf)))
    exact hbuf
  have hbefore : s.base ≤ (s.conn.handed ++ fs).length := by
    rw [List.length_append]
    exact Nat.le_add_right_of_le h.before
  have hsep : ∀ refused, (refused = true → format.Refused rest) →
      Separate { s with
        stream := s.stream ++ chunk
        conn := s.conn.after fs rest
        refused := refused } := by
    intro refused hr
    refine ⟨⟨?_, hr⟩, ?_, h.handler⟩
    · simp only [Connection.after_handed h.handler]
      exact hframes
    · simp only [Connection.after_handed h.handler]
      exact hbefore
  rw [hreceived]
  rcases handleData_cases (s := { s with stream := s.stream ++ chunk }) hs with
    ⟨-, he⟩ | ⟨hr, he⟩ | ⟨-, he⟩
  · rw [he]
    exact (hsep s.refused hrefusal).congr rfl rfl rfl rfl rfl rfl
  · rw [he]
    exact (hsep true fun _ => hr).setState .closed
  · rw [he]
    exact (hsep s.refused hrefusal).congr rfl rfl rfl rfl rfl rfl

theorem Separate.complete (h : Separate s) {e : Event} (hu : Undisturbed s e)
    (hs : s.complete e = some s') : Separate s' := by
  cases e with
  | resolved ok =>
    simp only [Client.complete, Option.ite_none_right_eq_some, Option.some.injEq] at hs
    obtain ⟨-, rfl⟩ := hs
    cases ok <;> exact h.congr rfl rfl rfl rfl rfl rfl
  | connected ok =>
    simp only [Client.complete, Option.ite_none_right_eq_some, Option.some.injEq] at hs
    obtain ⟨-, rfl⟩ := hs
    have hbuf : ok = true → s.conn.readbuf = [] := by
      rintro rfl
      exact hu
    exact (h.congr rfl rfl rfl rfl rfl rfl :
      Separate { s with connecting := s.connecting - 1 }).handleConnect hbuf
  | read k e =>
    simp only [Client.complete, Option.ite_none_right_eq_some, Option.some.injEq] at hs
    obtain ⟨-, rfl⟩ := hs
    have hless : Separate { s with reading := s.reading.erase k } := h.congr rfl rfl rfl rfl rfl rfl
    cases e with
    | error => exact hless.setState .closed
    | data chunk =>
      obtain rfl : k = s.number := hu
      exact hless.handleData chunk
  | wrote ok =>
    simp only [Client.complete, Option.ite_none_right_eq_some, Option.some.injEq] at hs
    obtain ⟨-, rfl⟩ := hs
    cases ok <;> exact h.congr rfl rfl rfl rfl rfl rfl
  | retry ok =>
    simp only [Client.complete, Option.ite_none_right_eq_some, Option.some.injEq] at hs
    obtain ⟨-, rfl⟩ := hs
    unfold handleRetry
    split <;> exact h.congr rfl rfl rfl rfl rfl rfl
  | _ => cases hs

theorem Separate.step (h : Separate s) {e : Event} (hu : Undisturbed s e)
    (hs : step s e = some s') : Separate s' := by
  unfold Client.step at hs
  split at hs
  · exact Option.some.inj hs ▸ h.congr rfl rfl rfl rfl rfl rfl
  · exact Option.some.inj hs ▸ h.setState .closed
  · exact Option.some.inj hs ▸ h.send _ _
  · split at hs
    · cases hs
    · exact h.complete hu hs

theorem Separate.init (retryInterval : UInt32) : Separate (init retryInterval) :=
  ⟨⟨.nil (.inl format.headerLen_pos), nofun⟩, Nat.le_refl _, rfl⟩

/-- **Streams stay apart.** If every connection finds the buffer empty and no
read delivers what an earlier connection has received, then at any time the
frames handed over since the last connect are the whole frames of its own
stream, and only a header of that stream is refused. -/
theorem isolated {retryInterval : UInt32} {es : List Event} {s : Client}
    (hg : Guarded step Undisturbed (init retryInterval) es)
    (hr : run step (init retryInterval) es = some s) : s.Isolated :=
  (hg.run_preserves (I := Separate) (fun _ _ _ h hu hs => h.step hu hs) (.init retryInterval)
    hr).isolated

/-- Two connections, the second made by the timer. -/
def twice (first second : List Event) : List Event :=
  [.start, .resolved true, .connected true] ++ first ++
    [.retry true, .resolved true, .connected true] ++ second

/-- A whole frame on each connection, the first of which breaks. -/
theorem isolated_twice : ∃ s, run step (init 1000)
    (twice [.read 1 (.data [0, 0, 0, 0, 7, 8]), .read 1 .error]
      [.read 2 (.data [1, 0, 0, 0, 7, 8, 9])]) = some s ∧ s.number = 2 ∧ s.Isolated := by
  obtain ⟨s, hr, hn⟩ : ∃ s, run step (init 1000)
      (twice [.read 1 (.data [0, 0, 0, 0, 7, 8]), .read 1 .error]
        [.read 2 (.data [1, 0, 0, 0, 7, 8, 9])]) = some s ∧ s.number = 2 := ⟨_, rfl, rfl⟩
  refine ⟨s, hr, hn, isolated ?_ hr⟩
  refine .cons trivial rfl (.cons trivial rfl (.cons rfl rfl ?_))
  refine .cons rfl rfl (.cons trivial rfl ?_)
  refine .cons trivial rfl (.cons trivial rfl (.cons rfl rfl ?_))
  exact .cons rfl rfl trivial

/-- Three bytes of a header that the first connection left behind are read as
the beginning of a frame of the second one, and a header that was refused once
is refused again on the next connection. -/
theorem streams_mix :
    (∃ s, run step (init 1000) (twice [.read 1 (.data [1, 0, 0]), .read 1 .error]
        [.read 2 (.data [0, 0, 0, 0, 7, 8])]) = some s ∧
      s.stream = [0, 0, 0, 0, 7, 8] ∧ s.conn.handed = [[1, 0, 0, 0, 0, 0, 0]] ∧ s.base = 0 ∧
      ¬ s.Isolated) ∧
    ∃ s, run step (init 1000) (twice [.read 1 (.data [255, 255, 255, 0, 0, 0])]
        [.read 2 (.data [0, 0, 0, 0, 7, 8])]) = some s ∧
      s.stream = [0, 0, 0, 0, 7, 8] ∧ s.conn.handed = [] ∧ s.refused = true ∧
      s.conn.state = .closed ∧ ¬ s.Isolated := by
  refine ⟨⟨_, rfl, rfl, rfl, rfl, ?_⟩, _, rfl, rfl, rfl, rfl, rfl, ?_⟩
  · exact fun h => absurd h.frames.eq (by decide)
  · exact fun h => absurd h.frames.eq (by decide)

end TinyWorld.NetAsio.Client
