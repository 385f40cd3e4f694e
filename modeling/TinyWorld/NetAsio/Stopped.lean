import TinyWorld.NetAsio.Client

/-! # A client after stop()

`stop` leaves every operation under way and the retry timer as they are. One
lemma for each event says when a closed client stays closed. -/
namespace TinyWorld.NetAsio.Client
open TinyWorld.Lib.Framing TinyWorld.Lib.Run

def Closed (s : Client) : Prop := s.conn.state = .closed

/-- An event after which the client is closed and has started nothing new. -/
def Stays (s : Client) (e : Event) : Prop :=
  ∀ s', step s e = some s' → Closed s' ∧ s'.started = s.started

/-- No resolve and no connect succeeds, the timer does not fire, and bytes that
are read end in a header that is refused or that has not got its body. -/
def Quiet (s : Client) : Event → Prop
  | .resolved ok => ok = false
  | .connected ok => ok = false
  | .read _ (.data chunk) =>
    ∀ fs rest, format.Splits (s.conn.readbuf ++ chunk) fs rest → ¬ format.Short rest
  | .retry _ => False
  | _ => True

variable {s s' : Client}

theorem stays_iff_of_eq {e : Event} (hs : step s e = some s') :
    Stays s e ↔ Closed s' ∧ s'.started = s.started := by
  unfold Stays
  rw [hs]
  exact ⟨fun h => h s' rfl, fun h t ht => Option.some.inj ht ▸ h⟩

/-- A closed connection sends nothing. -/
theorem send_closed (h : Closed s) (fresh : Nat → UInt8) (proto : Proto) :
    s.send fresh proto = s := by
  have hsend : s.conn.send fresh proto = (s.conn, false) :=
    if_pos (decide_eq_true (p := s.conn.state = .closed) h)
  unfold send
  rw [hsend]
  rfl

theorem handleResolve_stays_iff (s : Client) (ok : Bool) :
    (Closed (s.handleResolve ok) ∧ (s.handleResolve ok).started = s.started) ↔ ok = false := by
  cases ok with
  | false => exact ⟨fun _ => rfl, fun _ => ⟨rfl, rfl⟩⟩
  | true => exact ⟨fun hc => (nomatch hc.1), fun hn => (nomatch hn)⟩

theorem handleConnect_stays_iff (s : Client) (ok : Bool) :
    (Closed (s.handleConnect ok) ∧ (s.handleConnect ok).started = s.started) ↔ ok = false := by
  cases ok with
  | false => exact ⟨fun _ => rfl, fun _ => ⟨rfl, rfl⟩⟩
  | true => exact ⟨fun hc => (nomatch hc.1), fun hn => (nomatch hn)⟩

theorem handleRetry_not_closed (h : Closed s) : ¬ Closed s.handleRetry := by
  have hc : s.conn.isClosed = true := decide_eq_true (p := s.conn.state = .closed) h
  unfold handleRetry
  rw [if_pos hc]
  exact nofun

/-- Only a rest too short for a header starts the next read. -/
theorem handleData_stays_iff (h : Closed s) (chunk : Bytes) :
    (Closed (s.handleData chunk) ∧ (s.handleData chunk).started = s.started) ↔
      ∀ fs rest, format.Splits (s.conn.readbuf ++ chunk) fs rest → ¬ format.Short rest := by
  obtain ⟨fs, rest, hs⟩ := format.exists_splits (s.conn.readbuf ++ chunk)
  have hrest : (∀ fs rest, format.Splits (s.conn.readbuf ++ chunk) fs rest → ¬ format.Short rest) ↔
      ¬ format.Short rest :=
    ⟨fun hn => hn fs rest hs, fun hn gs r hg => (hs.unique hg).2 ▸ hn⟩
  rw [hrest]
  rcases handleData_cases hs with ⟨hr, he⟩ | ⟨hr, he⟩ | ⟨hr, he⟩
  · rw [he]
    refine ⟨fun hstays => ?_, fun hn => absurd hr hn⟩
    have hlen := congrArg List.length hstays.2
    simp [asyncRead] at hlen
  · rw [he]
    exact ⟨fun _ hshort => Nat.not_lt.mpr hr.1 hshort, fun _ => ⟨rfl, rfl⟩⟩
  · rw [he]
    exact ⟨fun _ hshort => hshort.not_incomplete hr, fun _ => ⟨h, rfl⟩⟩

theorem received_conn (k : Nat) (chunk : Bytes) : (s.received k chunk).conn = s.conn := by
  unfold received
  split <;> rfl

theorem received_started (k : Nat) (chunk : Bytes) : (s.received k chunk).started = s.started := by
  unfold received
  split <;> rfl

theorem handleRead_stays_iff (h : Closed s) (k : Nat) (e : Connection.ReadEvent) :
    (Closed (s.handleRead k e) ∧ (s.handleRead k e).started = s.started) ↔
      Quiet s (.read k e) := by
  cases e with
  | error => exact ⟨fun _ => trivial, fun _ => ⟨rfl, rfl⟩⟩
  | data chunk =>
    have hc : Closed (s.received k chunk) := by
      unfold Closed
      rw [received_conn]
      exact h
    have hiff := handleData_stays_iff hc chunk
    rw [received_conn, received_started] at hiff
    exact hiff

/-- One completion. -/
theorem complete_stays_iff (h : Closed s) {e : Event} (hs : s.complete e = some s') :
    (Closed s' ∧ s'.started = s.started) ↔ Quiet s e := by
  cases e with
  | resolved ok =>
    simp only [complete, Option.ite_none_right_eq_some, Option.some.injEq] at hs
    obtain ⟨-, rfl⟩ := hs
    exact handleResolve_stays_iff { s with resolving := s.resolving - 1 } ok
  | connected ok =>
    simp only [complete, Option.ite_none_right_eq_some, Option.some.injEq] at hs
    obtain ⟨-, rfl⟩ := hs
    exact handleConnect_stays_iff { s with connecting := s.connecting - 1 } ok
  | read k e =>
    simp only [complete, Option.ite_none_right_eq_some, Option.some.injEq] at hs
    obtain ⟨-, rfl⟩ := hs
    exact handleRead_stays_iff (s := { s with reading := s.reading.erase k }) h k e
  | wrote ok =>
    simp only [complete, Option.ite_none_right_eq_some, Option.some.injEq] at hs
    obtain ⟨-, rfl⟩ := hs
    refine ⟨fun _ => trivial, fun _ => ?_⟩
    cases ok
    · exact ⟨rfl, rfl⟩
    · exact ⟨h, rfl⟩
  | retry ok =>
    simp only [complete, Option.ite_none_right_eq_some, Option.some.injEq] at hs
    obtain ⟨-, rfl⟩ := hs
    have hno := handleRetry_not_closed (s := { s with waiting := false }) h
    exact ⟨fun hc => hno hc.1, False.elim⟩
  | _ => cases hs

/-- One event. -/
theorem stays_iff (h : Closed s) {e : Event} (he : e ≠ .start) (hs : step s e = some s') :
    Stays s e ↔ Quiet s e := by
  rw [stays_iff_of_eq hs]
  unfold step at hs
  split at hs
  · exact absurd rfl he
  · obtain rfl := Option.some.inj hs
    exact ⟨fun _ => trivial, fun _ => ⟨rfl, rfl⟩⟩
  · obtain rfl := Option.some.inj hs
    rw [send_closed h]
    exact ⟨fun _ => trivial, fun _ => ⟨h, rfl⟩⟩
  · split at hs
    · cases hs
    · exact complete_stays_iff h hs

/-- **A stopped client stays stopped** in exactly the runs in which nothing it
left under way succeeds and the retry timer does not fire. -/
theorem stays_stopped_iff (s : Client) {t : Client} {es : List Event}
    (hr : run step s.stop es = some t) (hstart : ∀ e ∈ es, e ≠ .start) :
    Guarded step Stays s.stop es ↔ Guarded step Quiet s.stop es := by
  have hboth : Guarded step (fun s e => (step s e).isSome = true ∧ Stays s e) s.stop es ↔
      Guarded step (fun s e => (step s e).isSome = true ∧ Quiet s e) s.stop es := by
    apply Guarded.congr (I := Closed)
    · intro s e he h
      refine and_congr_right fun hsome => ?_
      obtain ⟨s', hs⟩ := Option.isSome_iff_exists.mp hsome
      exact stays_iff h (hstart e he) hs
    · exact fun s e _ s' _ hok hs => (hok.2 s' hs).1
    · rfl
  rw [Guarded.and_iff, Guarded.and_iff] at hboth
  exact and_congr_right_iff.mp hboth (.of_run hr)

/-- A connect that fails after the stop. -/
theorem stays_stopped_iff_failed :
    Guarded step Stays (stop (start (init 0))) [.resolved false] ↔
      Guarded step Quiet (stop (start (init 0))) [.resolved false] :=
  stays_stopped_iff (start (init 0)) rfl (by simp)

/-- A resolve under way connects a stopped client, and the retry timer starts
it again. -/
theorem stopped_connects :
    (∃ t, run step (stop (start (init 0))) [.resolved true, .connected true] = some t ∧
      t.conn.state = .connected ∧ t.started = [.resolve, .connect, .read] ∧
      ¬ Guarded step Stays (stop (start (init 0))) [.resolved true, .connected true]) ∧
    ∃ t, run step (stop (init 1000)) [.retry true] = some t ∧
      t.conn.state = .resolving ∧ t.started = [.resolve] ∧
      ¬ Guarded step Stays (stop (init 1000)) [.retry true] := by
  refine ⟨⟨_, rfl, rfl, rfl, ?_⟩, _, rfl, rfl, rfl, ?_⟩
  · exact fun hg => nomatch (hg.1 _ rfl).1
  · exact fun hg => nomatch (hg.1 _ rfl).1

end TinyWorld.NetAsio.Client
