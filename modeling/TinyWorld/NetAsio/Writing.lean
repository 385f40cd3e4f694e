import Mathlib.Data.List.GetD
import Mathlib.Data.List.Nodup
import Mathlib.Logic.Function.Basic
import TinyWorld.Lib.Run
import TinyWorld.NetAsio.Delivery

/-! # Writes under way

Every `asyncWrite` is a loop of its own, which gives its buffer to the socket
piece by piece. Nothing makes one wait for the other. -/
namespace TinyWorld.NetAsio
open TinyWorld.Lib.Run

/-- `left` is what the loop of the `i`-th buffer of `conn.written` has yet to
give to the socket; `wire` are the bytes the socket has taken, each with the
number of the buffer it comes from. -/
structure Writing where
  conn : Connection
  left : Nat → Bytes
  wire : List (Nat × UInt8)

namespace Writing

inductive Event
  | send (fresh : Nat → UInt8) (proto : Proto)
  | accept (i n : Nat)

/-- Nothing has been sent. -/
def init (c : Connection) : Writing := ⟨{ c with written := [] }, fun _ => [], []⟩

def count (w : Writing) : Nat := w.conn.written.length

def send (w : Writing) (fresh : Nat → UInt8) (proto : Proto) : Writing :=
  { w with
    conn := (w.conn.send fresh proto).1
    left := if (w.conn.send fresh proto).2 then
      Function.update w.left w.count (Connection.frame fresh proto) else w.left }

/-- The socket takes the next `n` bytes of a buffer. -/
def accept (w : Writing) (i n : Nat) : Writing :=
  { w with
    left := Function.update w.left i ((w.left i).drop n)
    wire := w.wire ++ ((w.left i).take n).map (i, ·) }

/-- `none` when the buffer has not got that many bytes left. -/
def step (w : Writing) : Event → Option Writing
  | .send fresh proto => some (w.send fresh proto)
  | .accept i n => if 0 < n ∧ n ≤ (w.left i).length then some (w.accept i n) else none

/-- The `i`-th frame as it should appear on the wire. -/
def whole (w : Writing) (i : Nat) : List (Nat × UInt8) :=
  (w.conn.written.getD i []).map (i, ·)

/-- The wire holds whole frames in some order and at most the beginning of one
more, and all of them when every buffer is given away. -/
def Unmixed (w : Writing) : Prop :=
  ∃ order : List Nat, order.Perm (List.range w.count) ∧ w.wire <+: order.flatMap w.whole ∧
    ((∀ i, w.left i = []) → w.wire = order.flatMap w.whole)

def IsAccept : Event → Prop
  | .accept _ _ => True
  | .send _ _ => False

/-- However the socket takes the bytes that are left, the frames stay whole. -/
def NeverMixed (w : Writing) : Prop :=
  ∀ es t, (∀ e ∈ es, IsAccept e) → run step w es = some t → t.Unmixed

/-- An event after which no order of completions mixes the frames. -/
def KeepsWhole (w : Writing) (e : Event) : Prop := ∀ w', step w e = some w' → w'.NeverMixed

/-- What is sent finds every earlier frame on the wire. -/
def Waits (w : Writing) : Event → Prop
  | .send _ _ => ∀ i, w.left i = []
  | .accept _ _ => True

/-! ## Words made of blocks -/

/-- In a word of blocks of one letter each, no letter comes back. -/
theorem not_returning {α β : Type*} {f : α → List (α × β)} (hf : ∀ a, ∀ x ∈ f a, x.1 = a)
    {order : List α} (hn : order.Nodup) {a b : α} (hab : a ≠ b) :
    ¬ List.Sublist [a, b, a] ((order.flatMap f).map Prod.fst) := by
  induction order with
  | nil => simp
  | cons c order ih =>
    obtain ⟨hc, hn⟩ := List.nodup_cons.mp hn
    have hblock : ∀ x ∈ (f c).map Prod.fst, x = c := by
      intro x hx
      obtain ⟨y, hy, rfl⟩ := List.mem_map.mp hx
      exact hf c y hy
    have hrest : c ∉ (order.flatMap f).map Prod.fst := by
      intro hx
      obtain ⟨y, hy, hyc⟩ := List.mem_map.mp hx
      obtain ⟨d, hd, hy⟩ := List.mem_flatMap.mp hy
      rw [hf d y hy] at hyc
      exact hc (hyc ▸ hd)
    intro hs
    rw [List.flatMap_cons, List.map_append, List.sublist_append_iff] at hs
    obtain ⟨l₁, l₂, hl, h₁, h₂⟩ := hs
    cases l₁ with
    | nil => exact ih hn (hl ▸ h₂)
    | cons x l₁ =>
      rw [List.cons_append, List.cons.injEq] at hl
      obtain ⟨rfl, hl⟩ := hl
      have ha := hblock a (h₁.subset (by simp))
      cases l₁ with
      | nil =>
        have hl : [b, a] = l₂ := hl
        exact hrest (ha ▸ h₂.subset (hl ▸ by simp))
      | cons y l₁ =>
        rw [List.cons_append, List.cons.injEq] at hl
        obtain ⟨rfl, -⟩ := hl
        exact hab (ha.trans (hblock b (h₁.subset (by simp))).symm)

variable {w w' : Writing}

theorem Unmixed.not_returning (h : w.Unmixed) {i j : Nat} (hij : i ≠ j) :
    ¬ List.Sublist [i, j, i] (w.wire.map Prod.fst) := by
  obtain ⟨order, hp, hw, -⟩ := h
  intro hs
  refine Writing.not_returning (f := w.whole) ?_ (hp.nodup_iff.mpr List.nodup_range) hij
    (hs.trans (hw.map Prod.fst).sublist)
  intro a x hx
  obtain ⟨y, -, rfl⟩ := List.mem_map.mp hx
  rfl

/-! ## One frame after the other -/

/-- What the loops have yet to give to the socket. -/
def pending (w : Writing) (i : Nat) : List (Nat × UInt8) := (w.left i).map (i, ·)

/-- The invariant of the runs that wait: only the last frame has bytes left. -/
structure InOrder (w : Writing) : Prop where
  last : ∀ i, i + 1 ≠ w.count → w.left i = []
  wire : w.wire ++ (List.range w.count).flatMap w.pending = (List.range w.count).flatMap w.whole
  frames : ∀ f ∈ w.conn.written, sizeofMessageHeader ≤ f.length
  silent : w.conn.isClosed = true → ∀ i, w.left i = []

theorem InOrder.init (c : Connection) : InOrder (init c) :=
  ⟨fun _ _ => rfl, rfl, by simp [Writing.init], fun _ _ => rfl⟩

theorem pending_nil (h : ∀ i, w.left i = []) (n : Nat) : (List.range n).flatMap w.pending = [] := by
  rw [List.flatMap_eq_nil_iff]
  intro i _
  unfold pending
  rw [h i]
  rfl

/-- Of all buffers, at most the last counts. -/
theorem pending_last (h : ∀ i, i + 1 ≠ w.count → w.left i = []) {m : Nat} (hm : w.count = m + 1) :
    (List.range w.count).flatMap w.pending = w.pending m := by
  have hfirst : (List.range m).flatMap w.pending = [] := by
    rw [List.flatMap_eq_nil_iff]
    intro i hi
    have hi := List.mem_range.mp hi
    unfold pending
    rw [h i (by omega)]
    rfl
  rw [hm, List.range_succ, List.flatMap_append, hfirst]
  simp

theorem InOrder.unmixed (h : InOrder w) : w.Unmixed := by
  refine ⟨List.range w.count, .refl _, ⟨_, h.wire⟩, fun hleft => ?_⟩
  rw [← h.wire, pending_nil hleft, List.append_nil]

/-- An accepted piece goes from the buffer to the wire. -/
theorem InOrder.accept (h : InOrder w) {i n : Nat} (hpos : 0 < n) (hn : n ≤ (w.left i).length) :
    InOrder (w.accept i n) := by
  have hleft : w.left i ≠ [] := by
    intro hnil
    rw [hnil, List.length_nil] at hn
    omega
  have hi : w.count = i + 1 := by
    by_contra hne
    exact hleft (h.last i (Ne.symm hne))
  have hlast : ∀ j, j + 1 ≠ w.count → (w.accept i n).left j = [] := by
    intro j hj
    have hji : j ≠ i := by omega
    exact (Function.update_of_ne hji _ _).trans (h.last j hj)
  refine ⟨hlast, ?_, h.frames, fun hc => absurd (h.silent hc i) hleft⟩
  have hrest : (List.range w.count).flatMap (w.accept i n).pending =
      ((w.left i).drop n).map (i, ·) := by
    refine (pending_last (w := w.accept i n) hlast hi).trans ?_
    simp [pending, Writing.accept]
  show (w.wire ++ ((w.left i).take n).map (i, ·)) ++
    (List.range w.count).flatMap (w.accept i n).pending = (List.range w.count).flatMap w.whole
  rw [hrest, List.append_assoc, ← List.map_append, List.take_append_drop, ← h.wire,
    pending_last h.last hi]
  rfl

/-- A send of an open connection. -/
theorem send_open (ho : w.conn.isClosed = false) (fresh : Nat → UInt8) (proto : Proto) :
    w.send fresh proto = { w with
      conn := w.conn.asyncWrite (Connection.frame fresh proto)
      left := Function.update w.left w.count (Connection.frame fresh proto) } := by
  have hsend : w.conn.send fresh proto =
      (w.conn.asyncWrite (Connection.frame fresh proto), true) := by
    unfold Connection.send
    rw [ho]
    rfl
  unfold Writing.send
  rw [hsend]
  rfl

theorem send_closed (hc : w.conn.isClosed = true) (fresh : Nat → UInt8) (proto : Proto) :
    w.send fresh proto = w := by
  have hsend : w.conn.send fresh proto = (w.conn, false) := if_pos hc
  unfold Writing.send
  rw [hsend]
  rfl

/-- What an open connection has after a send. -/
structure Sent (w : Writing) (f : Bytes) (v : Writing) : Prop where
  written : v.conn.written = w.conn.written ++ [f]
  left : v.left = Function.update w.left w.count f
  wire : v.wire = w.wire
  isOpen : v.conn.isClosed = false

theorem sent (ho : w.conn.isClosed = false) (fresh : Nat → UInt8) (proto : Proto) :
    Sent w (Connection.frame fresh proto) (w.send fresh proto) := by
  rw [send_open ho]
  exact ⟨rfl, rfl, rfl, ho⟩

namespace Sent

variable {f : Bytes} {v : Writing}

theorem count (h : Sent w f v) : v.count = w.count + 1 := by
  unfold Writing.count
  rw [h.written, List.length_append]
  rfl

theorem left_self (h : Sent w f v) : v.left w.count = f := by
  rw [h.left, Function.update_self]

theorem left_of_ne (h : Sent w f v) {i : Nat} (hi : i ≠ w.count) : v.left i = w.left i := by
  rw [h.left, Function.update_of_ne hi]

theorem whole_self (h : Sent w f v) : v.whole w.count = f.map (w.count, ·) := by
  unfold whole
  rw [h.written,
    List.getD_append_right _ _ _ _ (show w.conn.written.length ≤ w.count from Nat.le_refl _)]
  simp [Writing.count]

theorem whole_lt (h : Sent w f v) {i : Nat} (hi : i < w.count) : v.whole i = w.whole i := by
  unfold whole
  rw [h.written, List.getD_append _ _ _ _ hi]

end Sent

/-- The frame sent last comes behind all others. -/
theorem InOrder.sent (h : InOrder w) (hleft : ∀ i, w.left i = []) {f : Bytes}
    (hf : sizeofMessageHeader ≤ f.length) {v : Writing} (hs : Sent w f v) : InOrder v := by
  have hlast : ∀ i, i + 1 ≠ v.count → v.left i = [] := by
    intro i hi
    rw [hs.count] at hi
    rw [hs.left_of_ne (by omega), hleft i]
  refine ⟨hlast, ?_, ?_, fun hc => ?_⟩
  · have hwire := h.wire
    rw [pending_nil hleft, List.append_nil] at hwire
    have hold : (List.range w.count).flatMap v.whole = (List.range w.count).flatMap w.whole :=
      List.flatMap_congr fun i hi => hs.whole_lt (List.mem_range.mp hi)
    have hnew : v.pending w.count = v.whole w.count := by
      unfold pending
      rw [hs.left_self, hs.whole_self]
    rw [pending_last hlast hs.count, hs.wire, hwire, hs.count, List.range_succ,
      List.flatMap_append, hold, hnew]
    simp
  · intro g hg
    rw [hs.written, List.mem_append, List.mem_singleton] at hg
    obtain hg | rfl := hg
    · exact h.frames g hg
    · exact hf
  · rw [hs.isOpen] at hc
    cases hc

theorem InOrder.send (h : InOrder w) (hleft : ∀ i, w.left i = []) (fresh : Nat → UInt8)
    (proto : Proto) : InOrder (w.send fresh proto) := by
  cases ho : w.conn.isClosed with
  | true =>
    rw [send_closed ho]
    exact h
  | false =>
    refine h.sent hleft ?_ (Writing.sent ho fresh proto)
    rw [Connection.frame_length]
    exact Nat.le_add_right _ _

theorem InOrder.step (h : InOrder w) {e : Event} (hw : Waits w e) (hs : step w e = some w') :
    InOrder w' := by
  cases e with
  | send fresh proto => exact Option.some.inj hs ▸ h.send hw fresh proto
  | accept i n =>
    simp only [Writing.step, Option.ite_none_right_eq_some, Option.some.injEq] at hs
    obtain ⟨⟨hpos, hn⟩, rfl⟩ := hs
    exact h.accept hpos hn

theorem InOrder.neverMixed (h : InOrder w) : w.NeverMixed := by
  intro es t hes hr
  have hg : Guarded Writing.step Waits w es := by
    apply Guarded.of_forall
    intro e he s
    cases e with
    | send fresh proto => exact (hes _ he).elim
    | accept i n => trivial
  exact (hg.run_preserves (fun _ _ _ h hw hs => h.step hw hs) h hr).unmixed

/-! ## Two frames under way -/

section OneByte
variable {i : Nat} {b : UInt8} {bs : Bytes}

theorem step_one (h : w.left i = b :: bs) : step w (.accept i 1) = some (w.accept i 1) := by
  have hlen : 0 < 1 ∧ 1 ≤ (w.left i).length := by
    rw [h]
    exact ⟨Nat.one_pos, Nat.succ_pos _⟩
  exact if_pos hlen

theorem accept_one_wire (h : w.left i = b :: bs) : (w.accept i 1).wire = w.wire ++ [(i, b)] := by
  unfold accept
  rw [h]
  rfl

theorem accept_one_left (h : w.left i = b :: bs) : (w.accept i 1).left i = bs := by
  unfold accept
  rw [h]
  exact Function.update_self ..

end OneByte

theorem accept_left_of_ne {i j : Nat} (hij : j ≠ i) (n : Nat) : (w.accept i n).left j = w.left j :=
  Function.update_of_ne hij ..

/-- A schedule that comes back to a frame. -/
theorem not_neverMixed {es : List Event} {t : Writing} (hes : ∀ e ∈ es, IsAccept e)
    (hr : run step w es = some t) {i j : Nat} (hij : i ≠ j)
    (hs : List.Sublist [i, j, i] (t.wire.map Prod.fst)) : ¬ w.NeverMixed :=
  fun h => (h es t hes hr).not_returning hij hs

/-- The last byte of a frame is only left when others are on the wire. -/
theorem InOrder.begun (h : InOrder w) {i : Nat} {b : UInt8} (hleft : w.left i = [b]) :
    i ∈ w.wire.map Prod.fst := by
  have hcount : w.count = i + 1 := by
    by_contra hne
    have := h.last i (Ne.symm hne)
    rw [hleft] at this
    cases this
  have hlong : sizeofMessageHeader ≤ (w.whole i).length := by
    have hlt : i < w.conn.written.length := by
      unfold count at hcount
      omega
    unfold whole
    rw [List.length_map, List.getD_eq_getElem _ _ hlt]
    exact h.frames _ (List.getElem_mem hlt)
  have hwire := h.wire
  rw [pending_last h.last hcount, hcount, List.range_succ, List.flatMap_append,
    List.flatMap_singleton] at hwire
  have hone : (w.pending i).length = 1 := by simp [pending, hleft]
  rcases List.append_eq_append_iff.mp hwire with ⟨as, -, hp⟩ | ⟨bs, hw, hp⟩
  · have hlen := congrArg List.length hp
    rw [List.length_append] at hlen
    unfold sizeofMessageHeader at hlong
    omega
  · have hlen := congrArg List.length hp
    rw [List.length_append] at hlen
    unfold sizeofMessageHeader at hlong
    obtain ⟨x, hx⟩ := List.length_pos_iff_exists_mem.mp (show 0 < bs.length by omega)
    refine List.mem_map.mpr ⟨x, hw ▸ List.mem_append_right _ hx, ?_⟩
    have hmem : x ∈ w.whole i := hp ▸ List.mem_append_left _ hx
    obtain ⟨y, -, rfl⟩ := List.mem_map.mp hmem
    rfl

/-- Bytes of an old frame, one of the new frame and one more of the old. -/
theorem InOrder.mixes (h : InOrder w) {i : Nat} (hi : w.left i ≠ []) {f : Bytes}
    (hf : sizeofMessageHeader ≤ f.length) {v : Writing} (hs : Sent w f v) : ¬ v.NeverMixed := by
  have hcount : w.count = i + 1 := by
    by_contra hne
    exact hi (h.last i (Ne.symm hne))
  have hij : i ≠ w.count := by omega
  obtain ⟨x, f, rfl⟩ := List.exists_cons_of_length_pos (Nat.lt_of_lt_of_le (by decide) hf)
  obtain ⟨b, bs, hb⟩ := List.exists_cons_of_ne_nil hi
  have hold : v.left i = b :: bs := (hs.left_of_ne hij).trans hb
  have hnew := hs.left_self
  cases bs with
  | nil =>
    have hold' : (v.accept w.count 1).left i = [b] := (accept_left_of_ne hij 1).trans hold
    have hr : run Writing.step v [.accept w.count 1, .accept i 1] =
        some ((v.accept w.count 1).accept i 1) := by
      rw [run_cons, step_one hnew, Option.bind_some, run_cons, step_one hold']
      rfl
    refine not_neverMixed (by simp [IsAccept]) hr hij ?_
    rw [accept_one_wire hold', accept_one_wire hnew, hs.wire, List.append_assoc, List.map_append]
    exact (List.singleton_sublist.mpr (h.begun hb)).append (List.Sublist.refl _)
  | cons b' bs =>
    have hleft := accept_one_left hold
    have hnew' : (v.accept i 1).left w.count = x :: f :=
      (accept_left_of_ne (Ne.symm hij) 1).trans hnew
    have hold' : ((v.accept i 1).accept w.count 1).left i = b' :: bs :=
      (accept_left_of_ne hij 1).trans hleft
    have hr : run Writing.step v [.accept i 1, .accept w.count 1, .accept i 1] =
        some (((v.accept i 1).accept w.count 1).accept i 1) := by
      rw [run_cons, step_one hold, Option.bind_some, run_cons, step_one hnew', Option.bind_some,
        run_cons, step_one hold']
      rfl
    refine not_neverMixed (by simp [IsAccept]) hr hij ?_
    rw [accept_one_wire hold', accept_one_wire hnew', accept_one_wire hold, List.append_assoc,
      List.append_assoc, List.map_append]
    exact List.sublist_append_right _ _

/-- One event: the frames stay whole however it goes on exactly when what is
sent waits for what was sent before. -/
theorem InOrder.step_keepsWhole_iff (h : InOrder w) (e : Event) : KeepsWhole w e ↔ Waits w e := by
  constructor
  · intro hk
    cases e with
    | accept i n => trivial
    | send fresh proto =>
      intro i
      by_contra hi
      cases ho : w.conn.isClosed with
      | true => exact hi (h.silent ho i)
      | false =>
        refine h.mixes hi ?_ (Writing.sent ho fresh proto) (hk _ rfl)
        rw [Connection.frame_length]
        exact Nat.le_add_right _ _
  · exact fun hw w' hs => (h.step hw hs).neverMixed

/-- **Frames stay whole on the wire**, whatever the socket takes and when, in
exactly the runs in which every send finds the earlier ones written out. -/
theorem keepsWhole_iff (c : Connection) (es : List Event) :
    Guarded step KeepsWhole (init c) es ↔ Guarded step Waits (init c) es := by
  apply Guarded.congr (I := InOrder)
  · exact fun w e _ h => h.step_keepsWhole_iff e
  · exact fun w e _ w' h hk hs => h.step ((h.step_keepsWhole_iff e).mp hk) hs
  · exact .init c

/-- Two messages without a body, the second sent before the first is written
out: all bytes are taken, and no whole frame is on the wire. -/
theorem two_sends_mix : ∃ t, run step (init Connection.opened)
    [.send (fun _ => 0) ⟨1, 1, []⟩, .send (fun _ => 0) ⟨2, 2, []⟩,
      .accept 0 5, .accept 1 5, .accept 0 1, .accept 1 1] = some t ∧
    t.left 0 = [] ∧ t.left 1 = [] ∧
    t.wire.map Prod.snd = [0, 0, 0, 0, 1, 0, 0, 0, 0, 2, 1, 2] ∧ ¬ t.Unmixed ∧
    ¬ Guarded step KeepsWhole (init Connection.opened)
      [.send (fun _ => 0) ⟨1, 1, []⟩, .send (fun _ => 0) ⟨2, 2, []⟩] := by
  have hmix : ∀ t : Writing, List.Sublist [0, 1, 0] (t.wire.map Prod.fst) → ¬ t.Unmixed :=
    fun t hs h => h.not_returning (by decide) hs
  refine ⟨_, rfl, rfl, rfl, rfl, hmix _ (by decide), fun hg => ?_⟩
  exact hmix _ (by decide) ((hg.2 _ rfl).1 _ rfl
    [.accept 0 5, .accept 1 5, .accept 0 1, .accept 1 1] _ (by simp [IsAccept]) rfl)

end Writing

end TinyWorld.NetAsio
