import Mathlib.Data.List.Infix
import TinyWorld.NetAsio.ReadLoop

/-! # What is sent, and what the peer's handler is given

The stream is the concatenation of the frames written. The reader hands over
the whole frames its format finds in the bytes it has read; these are the sent
frames exactly when every body is short enough for the reader and no chunk
stops it inside a body. -/
namespace TinyWorld.NetAsio
open TinyWorld.Lib.Framing

namespace Connection

/-! ## The frame `send` builds -/

section
variable (fresh : Nat → UInt8) (m : Proto)

theorem frame_length : (frame fresh m).length = sizeofMessageHeader + m.byteSize := by
  simp only [frame, Proto.serializeToArray, List.length_append, MessageHeader.toBytes_length]
  split <;> simp [Proto.byteSize]

theorem ofBytes_frame : MessageHeader.ofBytes (frame fresh m) =
    { MessageHeader.init m.type1 m.type2 with size := BitVec.ofNat 24 m.byteSize } := by
  rw [frame, MessageHeader.ofBytes_toBytes]
  rfl

variable {fresh m}

theorem size_frame (h : m.byteSize ≤ maxBodySize) :
    (MessageHeader.ofBytes (frame fresh m)).size.toNat = m.byteSize := by
  rw [ofBytes_frame, BitVec.toNat_ofNat]
  exact Nat.mod_eq_of_lt (by unfold maxBodySize at h; omega)

theorem frame_isFrame_iff : format.IsFrame (frame fresh m) ↔ m.byteSize ≤ maxBodySize := by
  have hl := frame_length fresh m
  have hsub : (frame fresh m).length - format.headerLen = m.byteSize := by
    rw [hl]; exact Nat.add_sub_cancel_left ..
  constructor
  · intro h
    have := h.whole
    rw [hsub] at this
    exact (format_announces_some this).2
  · intro h
    refine ⟨by rw [hl]; exact Nat.le_add_right .., ?_⟩
    rw [hsub]
    simp only [format, size_frame h, if_neg (Nat.not_lt.mpr h)]

theorem content_frame (h : m.byteSize ≤ maxBodySize) :
    content (frame fresh m) = (m.type1, m.type2, m.body) := by
  have hfits : ¬ (BitVec.ofNat 24 m.byteSize).toNat < m.byteSize := by
    have := @size_frame fresh m h
    rw [ofBytes_frame] at this
    simp only at this
    omega
  have hbody : (frame fresh m).drop sizeofMessageHeader = m.body := by
    simp only [frame, Proto.serializeToArray, if_neg hfits]
    rw [List.drop_left' (MessageHeader.toBytes_length _)]
    simp [Proto.byteSize]
  rw [content, hbody, ofBytes_frame]
  rfl

end

theorem sendAll_written {tx tx' : Connection} {ms : List ((Nat → UInt8) × Proto)}
    (h : tx.sendAll ms = (tx', true)) :
    tx'.written = tx.written ++ ms.map fun m => frame m.1 m.2 := by
  induction ms generalizing tx with
  | nil =>
    cases h
    simp
  | cons m ms ih =>
    obtain ⟨fresh, proto⟩ := m
    simp only [sendAll, Prod.mk.injEq, Bool.and_eq_true] at h
    obtain ⟨htx, hok, hoks⟩ := h
    have hsend : (tx.send fresh proto).1 = tx.asyncWrite (frame fresh proto) := by
      unfold send at hok ⊢
      split at hok
      · cases hok
      · rename_i hc; rw [if_neg hc]
    rw [ih (Prod.ext htx hoks), hsend]
    simp [asyncWrite]

/-! ## What the reader hands over -/

/-- The handler is given exactly `frames`, in order: at no time anything else,
and all of them at some time. -/
def HandsExactly (c : Connection) (es : List ReadEvent) (frames : List Bytes) : Prop :=
  (∀ passes, (c.reads passes es).1.handed <+: frames) ∧
    ∃ passes, (c.reads passes es).1.handed = frames

/-- Whatever the chunks, the reader hands over whole frames from the front of
the stream, and all of them once its calls return. -/
theorem reads_handed (passes : Nat) {c : Connection} (hh : c.messageHandler = true)
    (hshort : format.Short c.readbuf) {chunks : List Bytes} {fs : List Bytes} {rest : Bytes}
    (h : format.Splits (c.readbuf ++ chunks.flatten) fs rest) :
    (c.reads passes (chunks.map .data)).1.handed <+: c.handed ++ fs ∧
      ((c.reads passes (chunks.map .data)).2 ≠ .looping →
        (c.reads passes (chunks.map .data)).1.handed = c.handed ++ fs) := by
  induction chunks generalizing c fs rest with
  | nil =>
    rw [List.flatten_nil, List.append_nil] at h
    obtain ⟨rfl, -⟩ := h.unique (.nil (.inl hshort))
    simp [reads]
  | cons chunk chunks ih =>
    obtain ⟨gs, r, hg⟩ := format.exists_splits (c.readbuf ++ chunk)
    obtain ⟨ks, r', hk⟩ := format.exists_splits (r ++ chunks.flatten)
    have happ := hg.append hk
    rw [List.append_assoc, ← List.flatten_cons] at happ
    obtain ⟨rfl, rfl⟩ := h.unique happ
    rw [List.map_cons, reads]
    by_cases hl : format.Incomplete r ∨ passes ≤ gs.length
    · rw [handleRead_looping hg hl]
      refine ⟨?_, fun hne => absurd rfl hne⟩
      simp only [after_handed hh]
      exact (List.prefix_append_right_inj _).mpr
        ((List.take_prefix _ _).trans (List.prefix_append _ _))
    rw [not_or, Nat.not_le] at hl
    rcases hg.stops with hs | hs | hs
    · rw [handleRead_short hg hs hl.2]
      have := ih (c := c.after gs r) (by rw [after_messageHandler, hh]) hs hk
      rwa [after_handed hh, List.append_assoc] at this
    · obtain ⟨rfl, -⟩ := hk.unique (.nil (.inr (.inl (hs.append _))))
      rw [handleRead_refused hg hs hl.2]
      simp [onReadError, after_handed hh]
    · exact absurd hs hl.1

theorem cutsOutside_chunks {c : Connection} (hshort : format.Short c.readbuf)
    (chunks : List Bytes) : c.CutsOutside (chunks.map .data) ↔
      ∀ pre, pre <+: chunks → ¬ format.EndsInside (c.readbuf ++ pre.flatten) := by
  have hinj : Function.Injective ReadEvent.data := fun _ _ h => ReadEvent.data.inj h
  constructor
  · intro h pre hp
    by_cases hn : pre = []
    · rw [hn, List.flatten_nil, List.append_nil, (Format.Splits.nil (.inl hshort)).endsInside_iff]
      exact hshort.not_incomplete
    · exact h pre hn (hp.map _)
  · intro h pre _ hp
    obtain ⟨ds, hp, hd⟩ := List.prefix_map_iff.mp hp
    rw [List.map_injective_iff.mpr hinj hd]
    exact h ds hp

/-- A connection that has a handler and has read nothing. -/
structure Unread (c : Connection) : Prop where
  handler : c.messageHandler = true
  readbuf : c.readbuf = []
  handed : c.handed = []

theorem Unread.short {c : Connection} (hc : c.Unread) : format.Short c.readbuf := by
  rw [hc.readbuf]
  exact format.headerLen_pos

/-- `reads_handed` from the start of the stream. -/
theorem Unread.reads_handed {c : Connection} (hc : c.Unread) (passes : Nat)
    {chunks fs : List Bytes} {rest : Bytes} (h : format.Splits chunks.flatten fs rest) :
    (c.reads passes (chunks.map .data)).1.handed <+: fs ∧
      ((c.reads passes (chunks.map .data)).2 ≠ .looping →
        (c.reads passes (chunks.map .data)).1.handed = fs) := by
  simpa [hc.handed] using
    Connection.reads_handed passes hc.handler hc.short
    (by rwa [hc.readbuf] : format.Splits _ fs rest)

theorem Unread.cutsOutside_iff {c : Connection} (hc : c.Unread) {chunks : List Bytes} :
    c.CutsOutside (chunks.map .data) ↔ ∀ pre, pre <+: chunks → ¬ format.EndsInside pre.flatten := by
  simpa [hc.readbuf] using cutsOutside_chunks hc.short chunks

/-- A reader that stops inside a body never hands over the frame it stopped in. -/
theorem Unread.reads_endsInside {c : Connection} (hc : c.Unread) {pre : List Bytes}
    (h : format.EndsInside pre.flatten) (post : List Bytes) (passes : Nat) :
    (c.reads passes ((pre ++ post).map .data)).1.handed.flatten.length < pre.flatten.length := by
  have hloop : (c.reads passes (pre.map .data)).2 = .looping := by
    by_contra hl
    exact hc.cutsOutside_iff.mp (cutsOutside_of_reads hl) pre (List.prefix_refl _) h
  have hsame : c.reads passes ((pre ++ post).map .data) = c.reads passes (pre.map .data) := by
    rw [List.map_append, reads_append]
    generalize c.reads passes (pre.map .data) = r at hloop
    obtain ⟨c', _ | _ | _⟩ := r
    · cases hloop
    · cases hloop
    · rfl
  obtain ⟨fs, rest, hs, hi⟩ := h
  obtain ⟨t, ht⟩ := (hc.reads_handed passes hs).1
  have hrest : 0 < rest.length := Nat.lt_of_lt_of_le format.headerLen_pos hi.1
  rw [hsame, hs.eq, ← ht, List.flatten_append, List.length_append, List.length_append]
  omega

/-- Handing over exactly the frames of a stream means that no chunk ends inside one of them. -/
theorem Unread.handsExactly_iff {c : Connection} (hc : c.Unread) {frames chunks : List Bytes}
    (hf : ∀ f ∈ frames, format.IsFrame f) (hstream : chunks.flatten = frames.flatten) :
    c.HandsExactly (chunks.map .data) frames ↔
      ∀ pre, pre <+: chunks → ¬ format.EndsInside pre.flatten := by
  have hs : format.Splits chunks.flatten frames [] := hstream ▸ .of_frames hf
  constructor
  · intro h pre h' hends
    obtain ⟨-, passes, hall⟩ := h
    obtain ⟨post, rfl⟩ := h'
    have hlt := hc.reads_endsInside hends post passes
    have hle : pre.flatten.length ≤ (pre ++ post).flatten.length := by simp
    rw [hall] at hlt
    rw [hstream] at hle
    omega
  · intro hcuts
    obtain ⟨enough, he⟩ := reads_settle (hc.cutsOutside_iff.mpr hcuts)
    exact ⟨fun passes => (hc.reads_handed passes hs).1, enough,
      (hc.reads_handed enough hs).2 (he enough (Nat.le_refl _))⟩

/-- Only frames the reader recognises are ever handed over. -/
theorem Unread.reads_isFrame {c : Connection} (hc : c.Unread) (chunks : List Bytes)
    (passes : Nat) : ∀ f ∈ (c.reads passes (chunks.map .data)).1.handed, format.IsFrame f := by
  obtain ⟨fs, rest, hs⟩ := format.exists_splits chunks.flatten
  exact fun f hf => hs.frames f ((hc.reads_handed passes hs).1.subset hf)

/-- **Sent and handed over.** After successful sends, a peer that reads exactly
the written bytes, in any chunks, hands its handler exactly the sent frames,
each with its own type and body, if and only if every body fits the reader's
limit and no chunk ends inside a body. -/
theorem sent_frames_handed_iff {tx tx' rx : Connection} {ms : List ((Nat → UInt8) × Proto)}
    {chunks : List Bytes} (hsent : tx.sendAll ms = (tx', true)) (hrx : rx.Unread)
    (hstream : tx'.written.flatten = tx.written.flatten ++ chunks.flatten) :
    (rx.HandsExactly (chunks.map .data) (ms.map fun m => frame m.1 m.2) ∧
        ∀ m ∈ ms, content (frame m.1 m.2) = (m.2.type1, m.2.type2, m.2.body)) ↔
      (∀ m ∈ ms, m.2.byteSize ≤ maxBodySize) ∧
        ∀ pre, pre <+: chunks → ¬ format.EndsInside pre.flatten := by
  rw [sendAll_written hsent, List.flatten_append, List.append_cancel_left_eq] at hstream
  have hframes (hsizes : ∀ m ∈ ms, m.2.byteSize ≤ maxBodySize) :
      ∀ f ∈ ms.map fun m => frame m.1 m.2, format.IsFrame f :=
    List.forall_mem_map.mpr fun m hm => frame_isFrame_iff.mpr (hsizes m hm)
  constructor
  · intro h
    obtain ⟨hands, -⟩ := h
    have hsizes : ∀ m ∈ ms, m.2.byteSize ≤ maxBodySize := by
      obtain ⟨-, passes, hall⟩ := hands
      intro m hm
      have hf := hrx.reads_isFrame chunks passes (frame m.1 m.2)
      rw [hall] at hf
      exact frame_isFrame_iff.mp (hf (List.mem_map_of_mem hm))
    exact ⟨hsizes, (hrx.handsExactly_iff (hframes hsizes) hstream.symm).mp hands⟩
  · intro h
    obtain ⟨hsizes, hcuts⟩ := h
    exact ⟨(hrx.handsExactly_iff (hframes hsizes) hstream.symm).mpr hcuts,
      fun m hm => content_frame (hsizes m hm)⟩

/-- Two messages; the chunks end inside the first header, between the messages and inside the
second header. -/
theorem sent_frames_handed_cut :
    let ms : List ((Nat → UInt8) × Proto) :=
      [(fun _ => 0, ⟨1, 2, [7]⟩), (fun _ => 0, ⟨3, 4, [8, 9]⟩)]
    let chunks : List Bytes := [[1, 0, 0], [0, 1, 2, 7], [2, 0], [0, 0, 3, 4, 8, 9]]
    opened.HandsExactly (chunks.map .data) [[1, 0, 0, 0, 1, 2, 7], [2, 0, 0, 0, 3, 4, 8, 9]] ∧
      ∀ m ∈ ms, content (frame m.1 m.2) = (m.2.type1, m.2.type2, m.2.body) := by
  intro ms chunks
  have hsizes : ∀ m ∈ ms, m.2.byteSize ≤ maxBodySize := by decide
  -- every prefix of the chunks is frames and the start of a header
  have houtside (n : Nat) (rest : Bytes) (hr : rest.length < format.headerLen) :
      ¬ format.EndsInside (((ms.take n).map fun m => frame m.1 m.2).flatten ++ rest) :=
    Format.not_endsInside_short (List.forall_mem_map.mpr fun m hm =>
      frame_isFrame_iff.mpr (hsizes m (List.mem_of_mem_take hm))) hr
  refine (@sent_frames_handed_iff opened _ opened ms chunks rfl ⟨rfl, rfl, rfl⟩ (by decide)).mpr
    ⟨hsizes, fun pre hp => ?_⟩
  have hpre : pre ∈ chunks.inits := (List.mem_inits _ _).mpr hp
  simp only [chunks, List.inits, List.map_cons, List.map_nil, List.mem_cons,
    List.not_mem_nil, or_false] at hpre
  rcases hpre with rfl | rfl | rfl | rfl | rfl
  · exact houtside 0 [] (by decide)
  · exact houtside 0 [1, 0, 0] (by decide)
  · exact houtside 1 [] (by decide)
  · exact houtside 1 [2, 0] (by decide)
  · exact houtside 2 [] (by decide)

/-- The same message with its header arriving first: the frame is never handed over. -/
theorem split_frame_not_handed :
    ¬ ∀ (tx tx' rx : Connection) (ms : List ((Nat → UInt8) × Proto)) (chunks : List Bytes),
      tx.sendAll ms = (tx', true) → rx.Unread →
      tx'.written.flatten = tx.written.flatten ++ chunks.flatten →
      rx.HandsExactly (chunks.map .data) (ms.map fun m => frame m.1 m.2) ∧
        ∀ m ∈ ms, content (frame m.1 m.2) = (m.2.type1, m.2.type2, m.2.body) := by
  intro h
  obtain ⟨⟨-, passes, hall⟩, -⟩ := h opened _ opened [(fun _ => 0, ⟨1, 2, [7]⟩)]
    [[1, 0, 0, 0, 1, 2], [7]] rfl ⟨rfl, rfl, rfl⟩ (by decide)
  have hi : format.Incomplete [1, 0, 0, 0, 1, 2] := format_incomplete_iff.mpr (by decide)
  have hends : format.EndsInside ([[1, 0, 0, 0, 1, 2]] : List Bytes).flatten :=
    ⟨[], _, .nil (.inr (.inr hi)), hi⟩
  have hopened : opened.Unread := ⟨rfl, rfl, rfl⟩
  have hlt := hopened.reads_endsInside hends [[7]] passes
  rw [show [[1, 0, 0, 0, 1, 2]] ++ [[7]] = ([[1, 0, 0, 0, 1, 2], [7]] : List Bytes) from rfl,
    hall] at hlt
  exact absurd hlt (by decide)

end Connection

end TinyWorld.NetAsio
