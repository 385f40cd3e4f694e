import TinyWorld.NetAsio.Connection

/-! # The read loop on any buffer

The buffer splits into whole frames and a rest. Each pass of `readMessages`
takes one frame; on the rest it returns, except when the rest holds a legal
header whose body is incomplete: no branch of the loop body applies to it, and
the loop spins. -/
namespace TinyWorld.NetAsio
open TinyWorld.Lib.Framing

theorem format_announces_some {b : Bytes} {n : Nat} (h : format.announces b = some n) :
    (MessageHeader.ofBytes b).size.toNat = n ∧ n ≤ maxBodySize := by
  simp only [format, Option.ite_none_left_eq_some, Option.some.injEq, Nat.not_lt] at h
  omega

theorem format_short_iff {b : Bytes} : format.Short b ↔ b.length < sizeofMessageHeader := Iff.rfl

theorem format_refused_iff {b : Bytes} : format.Refused b ↔
    sizeofMessageHeader ≤ b.length ∧ maxBodySize < (MessageHeader.ofBytes b).size.toNat := by
  simp [Format.Refused, format]

theorem format_incomplete_iff {b : Bytes} : format.Incomplete b ↔
    sizeofMessageHeader ≤ b.length ∧ (MessageHeader.ofBytes b).size.toNat ≤ maxBodySize ∧
      b.length < (MessageHeader.ofBytes b).msgsize := by
  constructor
  · intro h
    obtain ⟨hl, n, hn, hlt⟩ := h
    obtain ⟨rfl, hle⟩ := format_announces_some hn
    exact ⟨hl, hle, hlt⟩
  · intro h
    obtain ⟨hl, hle, hlt⟩ := h
    exact ⟨hl, _, if_neg (Nat.not_lt.mpr hle), hlt⟩

namespace Connection

/-- The connection after its loop has taken the frames `fs` and left `rest`. -/
def after (c : Connection) (fs : List Bytes) (rest : Bytes) : Connection :=
  { c with
    readbuf := rest
    handed := c.handed ++ if c.messageHandler then fs else [] }

@[simp] theorem after_nil (c : Connection) : c.after [] c.readbuf = c := by simp [after]

@[simp] theorem after_messageHandler (c : Connection) (fs : List Bytes) (rest : Bytes) :
    (c.after fs rest).messageHandler = c.messageHandler := rfl

theorem after_handed {c : Connection} (h : c.messageHandler = true) (fs : List Bytes)
    (rest : Bytes) : (c.after fs rest).handed = c.handed ++ fs := by simp [after, h]

theorem after_after (c : Connection) (fs gs : List Bytes) (rest rest' : Bytes) :
    (c.after fs rest).after gs rest' = c.after (fs ++ gs) rest' := by
  cases h : c.messageHandler <;> simp [after, h]

/-- What the loop answers once only a rest is left, `none` when it spins. -/
def verdict (rest : Bytes) : Option Bool :=
  if rest.length < sizeofMessageHeader then some true
  else if maxBodySize < (MessageHeader.ofBytes rest).size.toNat then some false
  else none

theorem verdict_short {rest : Bytes} (h : format.Short rest) : verdict rest = some true :=
  if_pos h

theorem verdict_refused {rest : Bytes} (h : format.Refused rest) : verdict rest = some false := by
  obtain ⟨hl, hbig⟩ := format_refused_iff.mp h
  rw [verdict, if_neg (Nat.not_lt.mpr hl), if_pos hbig]

theorem verdict_incomplete {rest : Bytes} (h : format.Incomplete rest) : verdict rest = none := by
  obtain ⟨hl, hle, -⟩ := format_incomplete_iff.mp h
  rw [verdict, if_neg (Nat.not_lt.mpr hl), if_neg (Nat.not_lt.mpr hle)]

/-! ## One pass -/

theorem readMessages_frame (passes : Nat) {c : Connection} {f tail : Bytes}
    (hf : format.IsFrame f) (hb : c.readbuf = f ++ tail) :
    c.readMessages (passes + 1) = (c.after [f] tail).readMessages passes := by
  have hl : sizeofMessageHeader ≤ f.length := hf.header
  have hs := format_announces_some hf.whole
  have hmh : MessageHeader.ofBytes c.readbuf = MessageHeader.ofBytes f := by
    rw [hb, MessageHeader.ofBytes_append hl]
  have hsize : (MessageHeader.ofBytes c.readbuf).msgsize = f.length := by
    rw [MessageHeader.msgsize, hmh, hs.1]
    exact Nat.add_sub_of_le hl
  have hlen : f.length ≤ c.readbuf.length := by rw [hb, List.length_append]; omega
  have hstep : (c.handle f.length).consume f.length = c.after [f] tail := by
    cases h : c.messageHandler <;> simp [handle, consume, after, h, hb]
  rw [readMessages, if_pos (by omega)]
  simp only [hsize, if_pos hlen, hstep]
  rw [if_neg (by rw [hmh]; omega)]

theorem readMessages_returned (passes : Nat) {c : Connection}
    (hs : format.Short c.readbuf ∨ format.Refused c.readbuf) :
    c.readMessages (passes + 1) = (c, verdict c.readbuf) := by
  rcases hs with h | h
  · rw [verdict_short h, readMessages, if_neg (Nat.not_le.mpr (format_short_iff.mp h))]
  · obtain ⟨hl, hbig⟩ := format_refused_iff.mp h
    rw [verdict_refused h, readMessages, if_pos hl]
    exact if_pos hbig

/-- On an incomplete body a pass changes nothing and goes round again. -/
theorem readMessages_spins (passes : Nat) {c : Connection} (h : format.Incomplete c.readbuf) :
    c.readMessages passes = (c, none) := by
  obtain ⟨hl, hle, hlt⟩ := format_incomplete_iff.mp h
  induction passes with
  | zero => rfl
  | succ passes ih =>
    rw [readMessages, if_pos hl]
    simp only [if_neg (Nat.not_lt.mpr hle), if_neg (Nat.not_le.mpr hlt)]
    exact ih

theorem readMessages_stop (passes : Nat) {c : Connection}
    (hs : format.Short c.readbuf ∨ format.Refused c.readbuf ∨ format.Incomplete c.readbuf) :
    c.readMessages (passes + 1) = (c, verdict c.readbuf) := by
  rcases hs with h | h | h
  · exact readMessages_returned passes (.inl h)
  · exact readMessages_returned passes (.inr h)
  · rw [readMessages_spins _ h, verdict_incomplete h]

/-! ## The whole loop -/

theorem readMessages_eq (passes : Nat) {c : Connection} {fs : List Bytes} {rest : Bytes}
    (h : format.Splits c.readbuf fs rest) :
    c.readMessages passes = (c.after (fs.take passes) ((fs.drop passes).flatten ++ rest),
      if fs.length < passes then verdict rest else none) := by
  induction passes generalizing c fs with
  | zero => simp [readMessages, ← h.eq]
  | succ passes ih =>
    cases fs with
    | nil =>
      have hb : c.readbuf = rest := by simpa using h.eq
      rw [readMessages_stop passes (hb ▸ h.stops)]
      simp [← hb]
    | cons f fs =>
      have hf := h.frames f (by simp)
      have htail : format.Splits (c.after [f] (fs.flatten ++ rest)).readbuf fs rest :=
        ⟨rfl, fun g hg => h.frames g (List.mem_cons_of_mem _ hg), h.stops⟩
      rw [readMessages_frame passes hf (by simpa using h.eq), ih htail, after_after]
      simp

theorem readMessages_enough {passes : Nat} {c : Connection} {fs : List Bytes} {rest : Bytes}
    (h : format.Splits c.readbuf fs rest) (hp : fs.length < passes) :
    c.readMessages passes = (c.after fs rest, verdict rest) := by
  rw [readMessages_eq passes h, if_pos hp, List.take_of_length_le (by omega),
    List.drop_of_length_le (by omega)]
  rfl

theorem readMessages_returns_iff (c : Connection) :
    (∃ passes, (c.readMessages passes).2 ≠ none) ↔ ¬ format.EndsInside c.readbuf := by
  obtain ⟨fs, rest, h⟩ := format.exists_splits c.readbuf
  rw [h.endsInside_iff]
  constructor
  · intro h hi
    obtain ⟨passes, hne⟩ := h
    rw [readMessages_eq passes h, verdict_incomplete hi] at hne
    simp at hne
  · intro hi
    refine ⟨fs.length + 1, ?_⟩
    rw [readMessages_enough h (Nat.lt_succ_self _)]
    rcases h.stops with hs | hs | hs
    · simp [verdict_short hs]
    · simp [verdict_refused hs]
    · exact absurd hs hi

/-! ## One completed read -/

section
variable {passes : Nat} {c : Connection} {chunk rest : Bytes} {fs : List Bytes}

theorem handleRead_short (h : format.Splits (c.readbuf ++ chunk) fs rest)
    (hs : format.Short rest) (hp : fs.length < passes) :
    c.handleRead passes (.data chunk) = (c.after fs rest, .waiting) := by
  rw [handleRead, readMessages_enough (c := { c with readbuf := c.readbuf ++ chunk }) h hp,
    verdict_short hs]
  rfl

theorem handleRead_refused (h : format.Splits (c.readbuf ++ chunk) fs rest)
    (hs : format.Refused rest) (hp : fs.length < passes) :
    c.handleRead passes (.data chunk) = ((c.after fs rest).onReadError, .stopped) := by
  rw [handleRead, readMessages_enough (c := { c with readbuf := c.readbuf ++ chunk }) h hp,
    verdict_refused hs]
  rfl

theorem handleRead_looping (h : format.Splits (c.readbuf ++ chunk) fs rest)
    (hs : format.Incomplete rest ∨ passes ≤ fs.length) :
    c.handleRead passes (.data chunk) =
      (c.after (fs.take passes) ((fs.drop passes).flatten ++ rest), .looping) := by
  have hv : (if fs.length < passes then verdict rest else none) = none := by
    rcases hs with hs | hs
    · rw [verdict_incomplete hs, ite_self]
    · exact if_neg (Nat.not_lt.mpr hs)
  rw [handleRead, readMessages_eq (c := { c with readbuf := c.readbuf ++ chunk }) passes h, hv]
  rfl

end

/-! ## Runs of reads -/

theorem reads_append (passes : Nat) (c : Connection) (es es' : List ReadEvent) :
    c.reads passes (es ++ es') = match c.reads passes es with
      | (c', .waiting) => c'.reads passes es'
      | r => r := by
  induction es generalizing c with
  | nil => rfl
  | cons e es ih =>
    simp only [List.cons_append, reads]
    rcases c.handleRead passes e with ⟨c', _ | _ | _⟩
    · exact ih c'
    · rfl
    · rfl

/-- No chunk that `es` delivers ends inside a body, counted from `c`'s buffer. -/
def CutsOutside (c : Connection) (es : List ReadEvent) : Prop :=
  ∀ chunks : List Bytes, chunks ≠ [] → chunks.map .data <+: es →
    ¬ format.EndsInside (c.readbuf ++ chunks.flatten)

theorem cutsOutside_error (c : Connection) (es : List ReadEvent) :
    c.CutsOutside (.error :: es) := by
  intro chunks hne hp
  cases chunks with
  | nil => exact absurd rfl hne
  | cons chunk chunks => cases (List.cons_prefix_cons.mp hp).1

/-- A delivered chunk either leaves less than a header, and the next events
continue from there, or a header that is refused, and nothing more counts. -/
theorem cutsOutside_data {c : Connection} {chunk rest : Bytes} {fs : List Bytes}
    {es : List ReadEvent} (h : format.Splits (c.readbuf ++ chunk) fs rest) :
    c.CutsOutside (.data chunk :: es) ↔
      ¬ format.Incomplete rest ∧ (format.Short rest → (c.after fs rest).CutsOutside es) := by
  have shift : ∀ chunks : List Bytes, format.EndsInside (c.readbuf ++ (chunk :: chunks).flatten) ↔
      format.EndsInside (rest ++ chunks.flatten) := fun chunks => by
    rw [List.flatten_cons, ← List.append_assoc, h.endsInside_append]
  have stop : format.EndsInside rest ↔ format.Incomplete rest :=
    (Format.Splits.nil h.stops).endsInside_iff
  constructor
  · intro hc
    refine ⟨fun hi => hc [chunk] (by simp) (by simp) ?_, fun _ chunks _ hp hi => ?_⟩
    · rw [shift, List.flatten_nil, List.append_nil]
      exact stop.mpr hi
    · exact hc (chunk :: chunks) (by simp) (by simpa using hp) ((shift chunks).mpr hi)
  · intro h chunks hne hp
    obtain ⟨hi, hs⟩ := h
    cases chunks with
    | nil => exact absurd rfl hne
    | cons d chunks =>
      obtain ⟨hd, htail⟩ := List.cons_prefix_cons.mp hp
      obtain rfl : d = chunk := by simpa using hd
      rw [shift]
      rcases h.stops with h' | h' | h'
      · by_cases hn : chunks = []
        · simpa [hn] using stop.not.mpr hi
        · exact hs h' chunks hn htail
      · exact (Format.Splits.nil h.stops).refused_append h' _
      · exact absurd h' hi

theorem reads_settle {c : Connection} {es : List ReadEvent} (h : c.CutsOutside es) :
    ∃ enough, ∀ passes, enough ≤ passes → (c.reads passes es).2 ≠ .looping := by
  induction es generalizing c with
  | nil => exact ⟨0, fun _ _ => by simp [reads]⟩
  | cons e es ih =>
    cases e with
    | error => exact ⟨0, fun _ _ => by simp [reads, handleRead]⟩
    | data chunk =>
      obtain ⟨fs, rest, hs⟩ := format.exists_splits (c.readbuf ++ chunk)
      obtain ⟨hi, hn⟩ := (cutsOutside_data hs).mp h
      rcases hs.stops with h' | h' | h'
      · obtain ⟨enough, he⟩ := ih (hn h')
        refine ⟨max (fs.length + 1) enough, fun passes hp => ?_⟩
        rw [reads, handleRead_short hs h' (by omega)]
        exact he passes (by omega)
      · refine ⟨fs.length + 1, fun passes hp => ?_⟩
        rw [reads, handleRead_refused hs h' (by omega)]
        simp
      · exact absurd h' hi

theorem cutsOutside_of_reads {passes : Nat} {c : Connection} {es : List ReadEvent}
    (h : (c.reads passes es).2 ≠ .looping) : c.CutsOutside es := by
  induction es generalizing c with
  | nil =>
    intro chunks hne hp
    exact absurd (by simpa using hp) hne
  | cons e es ih =>
    cases e with
    | error => exact cutsOutside_error c es
    | data chunk =>
      obtain ⟨fs, rest, hs⟩ := format.exists_splits (c.readbuf ++ chunk)
      have hnot : ¬ (format.Incomplete rest ∨ passes ≤ fs.length) := fun hl => by
        rw [reads, handleRead_looping hs hl] at h
        exact h rfl
      rw [not_or, Nat.not_le] at hnot
      refine (cutsOutside_data hs).mpr ⟨hnot.1, fun h' => ih ?_⟩
      rwa [reads, handleRead_short hs h' hnot.2] at h

/-- **When reading returns.** The loop on a buffer returns exactly when the
buffer does not end inside a body; every call of `handle_read` in a run of
reads returns exactly when no chunk leaves the stream there. -/
theorem handleRead_returns_iff (c : Connection) :
    ((∃ passes, (c.readMessages passes).2 ≠ none) ↔ ¬ format.EndsInside c.readbuf) ∧
      ∀ es : List ReadEvent,
        (∃ passes, (c.reads passes es).2 ≠ .looping) ↔ c.CutsOutside es := by
  refine ⟨readMessages_returns_iff c, fun es => ⟨fun ⟨_, h⟩ => cutsOutside_of_reads h, fun h => ?_⟩⟩
  obtain ⟨enough, he⟩ := reads_settle h
  exact ⟨enough, he enough (Nat.le_refl _)⟩

/-- A connection that has just been opened. -/
def opened : Connection := ⟨.running, [], true, [], [], 0⟩

/-- A header that announces one body byte, arriving alone, is never returned from. -/
theorem lone_header_spins :
    ¬ ∀ (c : Connection) (es : List ReadEvent), ∃ passes, (c.reads passes es).2 ≠ .looping := by
  intro h
  obtain ⟨passes, hp⟩ := h opened [.data [1, 0, 0, 0, 0, 0]]
  have hi : format.Incomplete [1, 0, 0, 0, 0, 0] := format_incomplete_iff.mpr (by decide)
  have hs : format.Splits (opened.readbuf ++ [1, 0, 0, 0, 0, 0]) [] [1, 0, 0, 0, 0, 0] :=
    .nil (.inr (.inr hi))
  rw [reads, handleRead_looping hs (.inl hi)] at hp
  exact hp rfl

end Connection

end TinyWorld.NetAsio
