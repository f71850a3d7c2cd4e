import Nifra.Live.RedisStream

/-! # Following the stream

What a follower told its listener: every event below what it told last was told before, or is below
a gap that was told since.
-/

namespace Nifra.Live

namespace ListenerCall

def seq? : ListenerCall → Option ℕ
  | .event e => some e.seq
  | .gap head => some head
  | .down => none

def isDown : ListenerCall → Bool
  | .down => true
  | _ => false

end ListenerCall

/-- An appended event was told, or a gap that reaches it was told since. -/
def Told (appended : List Appended) (calls : List Call) (a : Appended) : Prop :=
  (∃ call ∈ calls, call.call = .event a.event) ∨
    ∃ call ∈ calls, ∃ head, call.call = .gap head ∧ a.seq ≤ head ∧ a ∈ appended.take call.asOf

/-- The clock's gap after an outage is at least as new as what was appended before its answer. -/
def EndsOutage (appended : List Appended) (call : Call) : Prop :=
  call.clock = true ∧ ∃ head, call.call = .gap head ∧ ∀ a ∈ appended.take call.asOf, a.seq ≤ head

namespace Follower
variable (f : Follower)

def eventSeqs : List ℕ := f.calls.filterMap fun call => match call.call with
  | .event e => some e.seq
  | _ => none

/-- Events come in the order of their seqs, each once, from the head on. -/
def InOrder : Prop := f.eventSeqs.Pairwise (· < ·) ∧ ∀ seq ∈ f.eventSeqs, f.head < seq

def Covers (appended : List Appended) : Prop :=
  ∀ before call, before ++ [call] <+: f.calls → ∀ seq, call.call.seq? = some seq →
    ∀ a ∈ appended, f.head < a.seq → a.seq < seq → Told appended (before ++ [call]) a

/-- After `down`, whatever comes first but another `down` ends the outage. -/
def Recovers (appended : List Appended) : Prop :=
  ∀ before down after, f.calls = before ++ down :: after → down.call = .down →
    ∀ first ∈ after.find? fun call => !call.call.isDown, EndsOutage appended first

end Follower

section Calls

variable {appended news : List Appended} {calls : List Call} {call : Call} {a : Appended}
  {down : Bool}

theorem Told.concat (h : Told appended calls a) : Told appended (calls ++ [call]) a :=
  h.imp (fun ⟨c, hc, he⟩ => ⟨c, List.mem_append_left _ hc, he⟩)
    fun ⟨c, hc, he⟩ => ⟨c, List.mem_append_left _ hc, he⟩

theorem Told.mono (h : Told appended calls a) : Told (appended ++ news) calls a := by
  refine h.imp_right ?_
  rintro ⟨c, hc, head, hcall, hle, hmem⟩
  exact ⟨c, hc, head, hcall, hle, ((List.prefix_append _ _).take _).subset hmem⟩

theorem told_of_gap {head asOf : ℕ} {clock : Bool} (hle : a.seq ≤ head)
    (hmem : a ∈ appended.take asOf) : Told appended (calls ++ [⟨.gap head, clock, asOf⟩]) a :=
  Or.inr ⟨_, List.mem_append_right _ (List.mem_singleton_self _), head, rfl, hle, hmem⟩

/-- An outage is open while only `down` was told since it began. -/
def Outages (appended : List Appended) (calls : List Call) (open_ : Bool) : Prop :=
  ∀ before down after, calls = before ++ down :: after → down.call = .down →
    (open_ = true ∧ ∀ call ∈ after, call.call.isDown = true) ∨
      ∃ first, (after.find? fun call => !call.call.isDown) = some first ∧ EndsOutage appended first

theorem eq_append_cons_of_concat {before after : List Call} {first : Call}
    (h : calls ++ [call] = before ++ first :: after) :
    (before = calls ∧ first = call ∧ after = []) ∨
      ∃ rest, after = rest ++ [call] ∧ calls = before ++ first :: rest := by
  rcases List.eq_nil_or_concat after with rfl | ⟨rest, last, rfl⟩
  · obtain ⟨hcalls, hcall⟩ := List.append_inj' h rfl
    exact Or.inl ⟨hcalls.symm, (List.singleton_inj.mp hcall).symm, rfl⟩
  · rw [List.concat_eq_append, ← List.cons_append, ← List.append_assoc] at h
    obtain ⟨hcalls, hcall⟩ := List.append_inj' h rfl
    rw [List.singleton_inj.mp hcall]
    exact Or.inr ⟨rest, List.concat_eq_append, hcalls⟩

theorem Outages.concat_down (h : Outages appended calls down) (hcall : call.call = .down) :
    Outages appended (calls ++ [call]) true := by
  intro before first after hsplit hfirst
  rcases eq_append_cons_of_concat hsplit with ⟨-, -, rfl⟩ | ⟨rest, rfl, rfl⟩
  · exact Or.inl ⟨rfl, fun _ hmem => by cases hmem⟩
  · rcases h before first rest rfl hfirst with ⟨-, hrest⟩ | ⟨ends, hfind, hends⟩
    · refine Or.inl ⟨rfl, ?_⟩
      intro c hc
      rcases List.mem_append.mp hc with hc | hc
      · exact hrest c hc
      · rw [List.mem_singleton.mp hc, hcall]
        rfl
    · exact Or.inr ⟨ends, by rw [List.find?_append, hfind, Option.some_or], hends⟩

theorem Outages.concat (h : Outages appended calls down) (hcall : call.call.isDown = false)
    (hends : down = true → EndsOutage appended call) :
    Outages appended (calls ++ [call]) false := by
  intro before first after hsplit hfirst
  rcases eq_append_cons_of_concat hsplit with ⟨-, rfl, -⟩ | ⟨rest, rfl, rfl⟩
  · rw [hfirst] at hcall
    cases hcall
  · right
    rcases h before first rest rfl hfirst with ⟨hdown, hrest⟩ | ⟨ends, hfind, hended⟩
    · refine ⟨call, ?_, hends hdown⟩
      have hnone : (rest.find? fun call => !call.call.isDown) = none := by
        rw [List.find?_eq_none]
        intro c hc
        simp [hrest c hc]
      rw [List.find?_append, hnone, Option.none_or]
      simp [hcall]
    · exact ⟨ends, by rw [List.find?_append, hfind, Option.some_or], hended⟩

theorem EndsOutage.mono (h : EndsOutage appended call) (hasOf : call.asOf ≤ appended.length) :
    EndsOutage (appended ++ news) call := by
  obtain ⟨hclock, head, hcall, hall⟩ := h
  refine ⟨hclock, head, hcall, ?_⟩
  rwa [List.take_append_of_le_length hasOf]

end Calls

/-- Every event up to `head` was appended by then, and no later one will be. -/
structure Settled (stream : RedisStream) (head asOf : ℕ) : Prop where
  reach : head ≤ stream.reach
  appended : ∀ a ∈ stream.appended, a.seq ≤ head → a ∈ stream.appended.take asOf

/-- The entries of a read that are still to be told, all after the cursor. -/
def Unread (stream : RedisStream) (cursor : StreamId) (reads : List Entry) (asOf : ℕ) : Prop :=
  ∃ entries : List StreamEntry, reads = entries.map StreamEntry.read ∧
    entries.Pairwise (fun a b => a.id < b.id) ∧
      ∀ entry ∈ entries, cursor < entry.id ∧ entry.Known stream.appended ∧
        Settled stream entry.id.time asOf

namespace Follower

/-- Told in order, above the cursor nothing; what is counted as told was. -/
structure Keeps (stream : RedisStream) (f : Follower) (cursor : StreamId) : Prop where
  cursor_text : f.cursor = cursor.text
  head_le : StreamId.mk f.head 0 ≤ cursor
  head_seq : f.head ≤ stream.seq
  last_reach : f.last ≤ stream.reach
  expected : f.expected ≤ stream.n + 1
  events : ∀ call ∈ f.calls, ∀ event, call.call = .event event →
    event.seq ≤ stream.seq ∧ f.head < event.seq ∧ StreamId.mk event.seq 0 ≤ cursor
  sorted : f.eventSeqs.Pairwise (· < ·)
  gaps : ∀ call ∈ f.calls, ∀ head, call.call = .gap head → Settled stream head call.asOf
  times : ∀ call ∈ f.calls, call.asOf ≤ stream.appended.length
  covers : f.Covers stream.appended
  counted : ∀ a ∈ stream.appended, f.head < a.seq → a.n < f.expected →
    Told stream.appended f.calls a
  outages : Outages stream.appended f.calls f.down

/-- A position that the clock gave, when the events told so far were appended before it. -/
structure Places (stream : RedisStream) (f : Follower) (now : BusPosition) (asOf : ℕ) : Prop where
  settled : Settled stream now.seq asOf
  newest : ∀ a ∈ stream.appended.take asOf, a.seq ≤ now.seq
  seq : now.seq ≤ stream.seq
  n : now.n ≤ stream.n
  counts : ∀ a ∈ stream.appended, a.n < now.n + 1 → a.seq ≤ now.seq
  events : ∀ call ∈ f.calls, ∀ event, call.call = .event event → event.seq ≤ now.seq
  head : f.head ≤ now.seq

/-- What a follower waits for comes after its cursor, and from the server as it was then. -/
def Awaits (stream : RedisStream) (f : Follower) (cursor : StreamId) : Awaiting → Prop
  | .answer none asOf => asOf ≤ stream.appended.length
  | .answer (some reads) asOf => asOf ≤ stream.appended.length ∧
      Unread stream cursor reads asOf ∧ Settled stream f.last asOf
  | .clock => f.down = true
  | .position now asOf => f.down = true ∧ asOf ≤ stream.appended.length ∧
      ∀ place ∈ now, f.Places stream place asOf
  | .entries reads asOf => f.down = false ∧ asOf ≤ stream.appended.length ∧
      Unread stream cursor reads asOf ∧ Settled stream f.last asOf
  | _ => True

end Follower

section Grows

variable {stream next : RedisStream} {f : Follower} {cursor : StreamId}

theorem RedisStream.Grows.length_le (h : stream.Grows next) :
    stream.appended.length ≤ next.appended.length := by
  obtain ⟨news, hnews, -⟩ := h.appended
  rw [hnews, List.length_append]
  exact Nat.le_add_right _ _

theorem RedisStream.Grows.take_eq (h : stream.Grows next) {asOf : ℕ}
    (hasOf : asOf ≤ stream.appended.length) :
    next.appended.take asOf = stream.appended.take asOf := by
  obtain ⟨news, hnews, -⟩ := h.appended
  rw [hnews, List.take_append_of_le_length hasOf]

theorem RedisStream.Grows.mem (h : stream.Grows next) {a : Appended} (ha : a ∈ next.appended)
    (hle : a.seq ≤ stream.reach ∨ a.n ≤ stream.n) : a ∈ stream.appended := by
  obtain ⟨news, hnews, hlater⟩ := h.appended
  rw [hnews] at ha
  rcases List.mem_append.mp ha with ha | ha
  · exact ha
  · obtain ⟨hseq, hn⟩ := hlater a ha
    omega

theorem RedisStream.Grows.told (h : stream.Grows next) {calls : List Call} {a : Appended}
    (ha : Told stream.appended calls a) : Told next.appended calls a := by
  obtain ⟨news, hnews, -⟩ := h.appended
  rw [hnews]
  exact ha.mono

theorem Settled.le {head lower asOf : ℕ} (h : Settled stream head asOf) (hle : lower ≤ head) :
    Settled stream lower asOf :=
  ⟨hle.trans h.reach, fun a ha halower => h.appended a ha (halower.trans hle)⟩

theorem Settled.mono {head asOf : ℕ} (h : Settled stream head asOf) (hgrows : stream.Grows next) :
    Settled next head asOf := by
  refine ⟨h.reach.trans hgrows.reach, ?_⟩
  intro a ha hle
  have hmem := h.appended a (hgrows.mem ha (Or.inl (hle.trans h.reach))) hle
  obtain ⟨news, hnews, -⟩ := hgrows.appended
  rw [hnews]
  exact ((List.prefix_append _ _).take _).subset hmem

theorem Unread.mono {reads : List Entry} {asOf : ℕ} (h : Unread stream cursor reads asOf)
    (hgrows : stream.Grows next) : Unread next cursor reads asOf := by
  obtain ⟨entries, hreads, hsorted, hall⟩ := h
  obtain ⟨news, hnews, -⟩ := hgrows.appended
  refine ⟨entries, hreads, hsorted, ?_⟩
  intro entry hentry
  obtain ⟨hlt, hknown, hsettled⟩ := hall entry hentry
  exact ⟨hlt, hnews ▸ hknown.mono, hsettled.mono hgrows⟩

theorem Outages.mono {calls : List Call} {down : Bool} (h : Outages stream.appended calls down)
    (htimes : ∀ call ∈ calls, call.asOf ≤ stream.appended.length) (hgrows : stream.Grows next) :
    Outages next.appended calls down := by
  intro before first after hsplit hfirst
  refine (h before first after hsplit hfirst).imp_right ?_
  rintro ⟨ends, hfind, hends⟩
  have hmem : ends ∈ calls := by
    rw [hsplit]
    exact List.mem_append_right _ (List.mem_cons_of_mem _ (List.mem_of_find?_eq_some hfind))
  obtain ⟨news, hnews, -⟩ := hgrows.appended
  rw [hnews]
  exact ⟨ends, hfind, hends.mono (htimes ends hmem)⟩

namespace Follower

theorem Keeps.mono (h : f.Keeps stream cursor) (hgrows : stream.Grows next) :
    f.Keeps next cursor where
  cursor_text := h.cursor_text
  head_le := h.head_le
  head_seq := h.head_seq.trans hgrows.seq
  last_reach := h.last_reach.trans hgrows.reach
  expected := h.expected.trans (Nat.succ_le_succ hgrows.n)
  events := fun call hcall event hevent =>
    ⟨(h.events call hcall event hevent).1.trans hgrows.seq, (h.events call hcall event hevent).2⟩
  sorted := h.sorted
  gaps := fun call hcall head hhead => (h.gaps call hcall head hhead).mono hgrows
  times := fun call hcall => (h.times call hcall).trans hgrows.length_le
  covers := by
    intro before call hprefix seq hseq a ha hhead hlt
    have hmem : call ∈ f.calls :=
      hprefix.subset (List.mem_append_right _ (List.mem_singleton_self _))
    have hle : seq ≤ stream.reach := by
      cases hcall : call.call with
      | event event =>
        rw [hcall] at hseq
        obtain rfl := Option.some.inj hseq
        exact (h.events call hmem event hcall).1.trans (le_max_left _ _)
      | gap head =>
        rw [hcall] at hseq
        obtain rfl := Option.some.inj hseq
        exact (h.gaps call hmem head hcall).reach
      | down =>
        rw [hcall] at hseq
        cases hseq
    exact hgrows.told (h.covers before call hprefix seq hseq a
      (hgrows.mem ha (Or.inl (hlt.le.trans hle))) hhead hlt)
  counted := by
    intro a ha hhead hlt
    have hn : a.n ≤ stream.n := Nat.lt_succ_iff.mp (hlt.trans_le h.expected)
    exact hgrows.told (h.counted a (hgrows.mem ha (Or.inr hn)) hhead hlt)
  outages := h.outages.mono h.times hgrows

theorem Places.mono {now : BusPosition} {asOf : ℕ} (h : f.Places stream now asOf)
    (hasOf : asOf ≤ stream.appended.length) (hgrows : stream.Grows next) :
    f.Places next now asOf where
  settled := h.settled.mono hgrows
  newest := by
    rw [hgrows.take_eq hasOf]
    exact h.newest
  seq := h.seq.trans hgrows.seq
  n := h.n.trans hgrows.n
  counts := by
    intro a ha hlt
    have hn : a.n ≤ stream.n := (Nat.lt_succ_iff.mp hlt).trans h.n
    exact h.counts a (hgrows.mem ha (Or.inr hn)) hlt
  events := h.events
  head := h.head

theorem Awaits.mono {awaiting : Awaiting} (h : f.Awaits stream cursor awaiting)
    (hgrows : stream.Grows next) : f.Awaits next cursor awaiting := by
  have hlength := hgrows.length_le
  cases awaiting with
  | answer reads asOf =>
    cases reads with
    | none => exact le_trans (show asOf ≤ _ from h) hlength
    | some reads =>
      obtain ⟨hasOf, hunread, hlast⟩ := h
      exact ⟨hasOf.trans hlength, hunread.mono hgrows, hlast.mono hgrows⟩
  | clock => exact h
  | position now asOf =>
    obtain ⟨hdown, hasOf, hnow⟩ := h
    exact ⟨hdown, hasOf.trans hlength, fun place hmem => (hnow place hmem).mono hasOf hgrows⟩
  | entries reads asOf =>
    obtain ⟨hdown, hasOf, hunread, hlast⟩ := h
    exact ⟨hdown, hasOf.trans hlength, hunread.mono hgrows, hlast.mono hgrows⟩
  | read => trivial
  | ended => trivial

end Follower

end Grows

namespace Follower

section Steps

variable {stream : RedisStream} {f : Follower} {cursor : StreamId} {asOf head : ℕ} {clock : Bool}
  {a : Appended} {entry : StreamEntry} {now : BusPosition}

theorem eventSeqs_tell_gap : (f.tell (.gap head) clock asOf).eventSeqs = f.eventSeqs := by
  simp [eventSeqs, tell, List.filterMap_append]

theorem eventSeqs_tell_event (event : LiveBusEvent) :
    (f.tell (.event event) clock asOf).eventSeqs = f.eventSeqs ++ [event.seq] := by
  simp [eventSeqs, tell, List.filterMap_append]

theorem mem_eventSeqs {seq : ℕ} (h : seq ∈ f.eventSeqs) :
    ∃ call ∈ f.calls, ∃ event, call.call = .event event ∧ event.seq = seq := by
  obtain ⟨call, hcall, hseq⟩ := List.mem_filterMap.mp h
  split at hseq
  · next event hevent => exact ⟨call, hcall, event, hevent, Option.some.inj hseq⟩
  · cases hseq

theorem forall_tell {P : Call → Prop} {said : ListenerCall} :
    (∀ call ∈ (f.tell said clock asOf).calls, P call) ↔
      (∀ call ∈ f.calls, P call) ∧ P ⟨said, clock, asOf⟩ := by
  simp [tell, or_imp, forall_and]

theorem Covers.tell {appended : List Appended} {call : ListenerCall} (h : f.Covers appended)
    (hcall : ∀ seq, call.seq? = some seq → ∀ a ∈ appended, f.head < a.seq → a.seq < seq →
      Told appended (f.calls ++ [⟨call, clock, asOf⟩]) a) :
    (f.tell call clock asOf).Covers appended := by
  intro before last hprefix seq hseq a ha hhead hlt
  rcases List.prefix_concat_iff.mp hprefix with heq | hprefix
  · obtain ⟨rfl, hlast⟩ := List.append_inj' heq rfl
    obtain rfl := List.singleton_inj.mp hlast
    exact hcall seq hseq a ha hhead hlt
  · exact h before last hprefix seq hseq a ha hhead hlt

theorem Keeps.gap (h : f.Keeps stream cursor) (hhead : Settled stream head asOf)
    (hasOf : asOf ≤ stream.appended.length)
    (hends : f.down = true → EndsOutage stream.appended ⟨.gap head, clock, asOf⟩) :
    ({ f.tell (.gap head) clock asOf with down := false }).Keeps stream cursor where
  cursor_text := h.cursor_text
  head_le := h.head_le
  head_seq := h.head_seq
  last_reach := h.last_reach
  expected := h.expected
  events := (forall_tell (f := f)).mpr ⟨h.events, fun event hevent => by cases hevent⟩
  sorted := by
    have hsorted := h.sorted
    rwa [← eventSeqs_tell_gap (f := f)] at hsorted
  gaps := (forall_tell (f := f)).mpr ⟨h.gaps, fun top htop => by
    obtain rfl := ListenerCall.gap.inj htop
    exact hhead⟩
  times := (forall_tell (f := f)).mpr ⟨h.times, hasOf⟩
  covers := h.covers.tell fun seq hseq b hb _ hlt => by
    obtain rfl := Option.some.inj hseq
    exact told_of_gap hlt.le (hhead.appended b hb hlt.le)
  counted := fun b hb hbhead hlt => (h.counted b hb hbhead hlt).concat
  outages := h.outages.concat rfl hends

theorem Keeps.gap_of_up (h : f.Keeps stream cursor) (hhead : Settled stream head asOf)
    (hasOf : asOf ≤ stream.appended.length) (hdown : f.down = false) :
    (f.tell (.gap head) clock asOf).Keeps stream cursor := by
  have hkeeps : ({ f.tell (.gap head) clock asOf with down := false }).Keeps stream cursor :=
    h.gap hhead hasOf fun hd => by
      rw [hdown] at hd
      cases hd
  have heq : { f.tell (.gap head) clock asOf with down := false } =
      f.tell (.gap head) clock asOf := by
    rw [← hdown]
    rfl
  rwa [heq] at hkeeps

theorem Keeps.event (h : f.Keeps stream cursor) (hs : stream.Sound) (ha : a ∈ stream.appended)
    (hlt : cursor < StreamId.mk a.seq 0) (hasOf : asOf ≤ stream.appended.length)
    (hdown : f.down = false)
    (hbefore : ∀ b ∈ stream.appended, f.head < b.seq → b.seq < a.seq →
      Told stream.appended f.calls b) :
    ({ f with cursor := (StreamId.mk a.seq 0).text }.tell (.event a.event) false asOf).Keeps stream
      (StreamId.mk a.seq 0) where
  cursor_text := rfl
  head_le := h.head_le.trans hlt.le
  head_seq := h.head_seq
  last_reach := h.last_reach
  expected := h.expected
  events := by
    refine (forall_tell (f := f)).mpr ⟨fun call hcall event hevent => ?_, fun event hevent => ?_⟩
    · obtain ⟨hseq, hhead, hle⟩ := h.events call hcall event hevent
      exact ⟨hseq, hhead, hle.trans hlt.le⟩
    · obtain rfl := ListenerCall.event.inj hevent
      exact ⟨(hs.below a ha).1, StreamId.mk_lt_mk_iff.mp (h.head_le.trans_lt hlt), le_rfl⟩
  sorted := by
    have hseqs : (f.tell (.event a.event) false asOf).eventSeqs = f.eventSeqs ++ [a.seq] :=
      eventSeqs_tell_event a.event
    change (f.tell (.event a.event) false asOf).eventSeqs.Pairwise (· < ·)
    rw [hseqs]
    refine List.pairwise_append.mpr ⟨h.sorted, List.pairwise_singleton _ _, ?_⟩
    intro seq hseq seq' hseq'
    obtain ⟨call, hcall, event, hevent, rfl⟩ := mem_eventSeqs hseq
    rw [List.mem_singleton.mp hseq']
    exact StreamId.mk_lt_mk_iff.mp ((h.events call hcall event hevent).2.2.trans_lt hlt)
  gaps := (forall_tell (f := f)).mpr ⟨h.gaps, fun top htop => by cases htop⟩
  times := (forall_tell (f := f)).mpr ⟨h.times, hasOf⟩
  covers := Covers.tell (f := f) h.covers fun seq hseq b hb hbhead hblt => by
    obtain rfl := Option.some.inj hseq
    exact (hbefore b hb hbhead hblt).concat
  counted := fun b hb hbhead hblt => (h.counted b hb hbhead hblt).concat
  outages := by
    have houtages : Outages stream.appended (f.calls ++ [⟨.event a.event, false, asOf⟩]) false :=
      h.outages.concat rfl fun hd => by
        rw [hdown] at hd
        cases hd
    change Outages stream.appended (f.calls ++ [_]) f.down
    rwa [hdown]

theorem Keeps.advance (h : f.Keeps stream cursor) {id : StreamId} (hle : cursor ≤ id) :
    { f with cursor := id.text }.Keeps stream id :=
  { h with
    cursor_text := rfl
    head_le := h.head_le.trans hle
    events := fun call hcall event hevent =>
      ⟨(h.events call hcall event hevent).1, (h.events call hcall event hevent).2.1,
        (h.events call hcall event hevent).2.2.trans hle⟩ }

theorem Keeps.count (h : f.Keeps stream cursor) {expected last : ℕ} (hlast : last ≤ stream.reach)
    (hexpected : expected ≤ stream.n + 1)
    (hcounted : ∀ b ∈ stream.appended, f.head < b.seq → b.n < expected →
      Told stream.appended f.calls b) :
    { f with
      expected := expected,
      last := last }.Keeps stream cursor :=
  { h with
    last_reach := hlast
    expected := hexpected
    counted := hcounted }

theorem Keeps.tellOwn (h : f.Keeps stream cursor) (hs : stream.Sound) (ha : a ∈ stream.appended)
    (hlt : cursor < StreamId.mk a.seq 0) (hasOf : asOf ≤ stream.appended.length)
    (hdown : f.down = false)
    (hbefore : ∀ b ∈ stream.appended, f.head < b.seq → b.seq < a.seq →
      Told stream.appended f.calls b) :
    { { f with cursor := (StreamId.mk a.seq 0).text }.tell (.event a.event) false asOf with
      expected := a.n + 1,
      last := a.seq }.Keeps stream (StreamId.mk a.seq 0) := by
  have hbelow := hs.below a ha
  refine (h.event hs ha hlt hasOf hdown hbefore).count (hbelow.1.trans (le_max_left _ _))
    (Nat.succ_le_succ hbelow.2.1) ?_
  intro b hb hhead hn
  rcases hs.compare hb ha with rfl | ⟨hcmp, -⟩ | ⟨-, hcmp⟩
  · exact Or.inl ⟨_, List.mem_append_right _ (List.mem_singleton_self _), rfl⟩
  · exact (hbefore b hb hhead hcmp).concat
  · omega

theorem Keeps.deliver (h : f.Keeps stream cursor) (hs : stream.Sound) (hlt : cursor < entry.id)
    (hknown : entry.Known stream.appended) (hsettled : Settled stream entry.id.time asOf)
    (hlast : Settled stream f.last asOf) (hasOf : asOf ≤ stream.appended.length)
    (hdown : f.down = false) :
    (f.deliver entry.read asOf).Keeps stream entry.id ∧
      Settled stream (f.deliver entry.read asOf).last asOf ∧
        (f.deliver entry.read asOf).down = false := by
  by_cases hzero : entry.read.seq = 0
  · have heq : f.deliver entry.read asOf =
        { f with cursor := entry.id.text }.tell (.gap f.last) false asOf := by
      simp [Follower.deliver, hzero]
    rw [heq]
    exact ⟨(h.advance hlt.le).gap_of_up hlast hasOf hdown, hlast, hdown⟩
  rcases hknown with ⟨a, ha, hwrites⟩ | hharmless
  · obtain ⟨hown, hread⟩ := hs.read_own ha hwrites
    rw [hown] at hlt hsettled ⊢
    rw [hread]
    have hpos := (hs.below a ha).2.2.1
    by_cases hn : a.n = f.expected
    · have heq : f.deliver ⟨(StreamId.mk a.seq 0).text, a.seq, a.n, some a.event⟩ asOf =
          { { f with cursor := (StreamId.mk a.seq 0).text }.tell (.event a.event) false asOf with
            expected := a.n + 1,
            last := a.seq } := by
        simp [Follower.deliver, hpos.ne', hn, tell]
      rw [heq]
      refine ⟨h.tellOwn hs ha hlt hasOf hdown ?_, hsettled, hdown⟩
      intro b hb hhead hcmp
      rcases hs.compare hb ha with rfl | ⟨-, hbn⟩ | ⟨hba, -⟩
      · exact absurd hcmp (lt_irrefl _)
      · exact h.counted b hb hhead (hn ▸ hbn)
      · exact absurd hcmp hba.asymm
    · have heq : f.deliver ⟨(StreamId.mk a.seq 0).text, a.seq, a.n, some a.event⟩ asOf =
          { { f.tell (.gap (a.seq - 1)) false asOf with
              cursor := (StreamId.mk a.seq 0).text }.tell (.event a.event) false asOf with
            expected := a.n + 1,
            last := a.seq } := by
        simp [Follower.deliver, hpos.ne', hn, tell]
      have hskipped := hsettled.le (Nat.sub_le a.seq 1)
      rw [heq]
      refine ⟨(h.gap_of_up hskipped hasOf hdown).tellOwn hs ha hlt hasOf hdown ?_, hsettled, hdown⟩
      intro b hb _ hcmp
      have hle : b.seq ≤ a.seq - 1 := Nat.le_sub_one_of_lt hcmp
      exact told_of_gap hle (hskipped.appended b hb hle)
  · -- a foreign entry restarts the count, so that the next event is told with a gap
    obtain ⟨hn, hevent⟩ := hharmless hzero
    rw [← entry.read_seq_eq_time hzero] at hsettled
    obtain ⟨g, hg, hgdown, heq⟩ : ∃ g : Follower, g.Keeps stream cursor ∧ g.down = false ∧
        f.deliver entry.read asOf =
          { { g with cursor := entry.id.text } with
            expected := 1,
            last := entry.read.seq }.tell (.gap entry.read.seq) false asOf := by
      by_cases hexpected : f.expected = 0
      · exact ⟨f, h, hdown, by simp [Follower.deliver, hzero, hn, hevent, hexpected]⟩
      · have hskipped := hsettled.le (Nat.sub_le entry.read.seq 1)
        exact ⟨f.tell (.gap (entry.read.seq - 1)) false asOf, h.gap_of_up hskipped hasOf hdown,
          hdown, by simp [Follower.deliver, hzero, hn, hevent, Ne.symm hexpected, tell]⟩
    have hcounted := (hg.advance hlt.le).count hsettled.reach
      (Nat.succ_le_succ (Nat.zero_le stream.n)) fun b hb _ hbn =>
        absurd (hs.below b hb).2.2.2 (Nat.not_lt.mpr (Nat.lt_one_iff.mp hbn).le)
    rw [heq]
    exact ⟨hcounted.gap_of_up hsettled hasOf hgdown, hsettled, hgdown⟩

theorem Keeps.recover (h : f.Keeps stream cursor) (hnow : f.Places stream now asOf)
    (hasOf : asOf ≤ stream.appended.length) :
    (f.recover now asOf).Keeps stream (StreamId.mk now.seq 0) := by
  have hgap := h.gap hnow.settled hasOf fun _ => (⟨rfl, now.seq, rfl, hnow.newest⟩ :
    EndsOutage stream.appended ⟨.gap now.seq, true, asOf⟩)
  have hevents : ∀ call ∈ (f.tell (.gap now.seq) true asOf).calls, ∀ event,
      call.call = .event event →
      event.seq ≤ stream.seq ∧ f.head < event.seq ∧
        StreamId.mk event.seq 0 ≤ StreamId.mk now.seq 0 :=
    forall_tell.mpr ⟨fun call hcall event hevent => ⟨(h.events call hcall event hevent).1,
      (h.events call hcall event hevent).2.1,
      StreamId.mk_le_mk_iff.mpr (hnow.events call hcall event hevent)⟩,
      fun event hevent => by cases hevent⟩
  exact { hgap with
    cursor_text := StreamId.text_mk_zero.symm
    head_le := StreamId.mk_le_mk_iff.mpr hnow.head
    last_reach := hnow.settled.reach
    expected := Nat.succ_le_succ hnow.n
    events := hevents
    counted := fun a ha _ hn =>
      told_of_gap (hnow.counts a ha hn) (hnow.settled.appended a ha (hnow.counts a ha hn)) }

theorem Keeps.fail (h : f.Keeps stream cursor) (hasOf : asOf ≤ stream.appended.length) :
    (f.fail asOf).Keeps stream cursor := by
  unfold Follower.fail
  dsimp only
  split
  · exact { h with
      events := (forall_tell (f := f)).mpr ⟨h.events, fun event hevent => by cases hevent⟩
      sorted := by
        have hsorted := h.sorted
        simpa [eventSeqs, tell, List.filterMap_append] using hsorted
      gaps := (forall_tell (f := f)).mpr ⟨h.gaps, fun top htop => by cases htop⟩
      times := (forall_tell (f := f)).mpr ⟨h.times, hasOf⟩
      covers := Covers.tell (f := f) h.covers fun seq hseq => by cases hseq
      counted := fun b hb hbhead hblt => (h.counted b hb hbhead hblt).concat
      outages := h.outages.concat_down rfl }
  · exact { h with }

end Steps

end Follower

end Nifra.Live
