import Nifra.Live.RedisFollowing

/-! # What a subscription to the Redis bus delivers

In every run in which the clock's replies can be read where they are relied on, and foreign entries
are not taken for those of the bus, nothing is skipped without a gap.
-/

namespace Nifra.Live

open Runs

namespace RedisBus

/-- The follower keeps what it told in order, and the stream is sound. -/
def Sound (bus : RedisBus) : Prop :=
  bus.stream.Sound ∧ ∀ f ∈ bus.follower, ∃ cursor, f.Keeps bus.stream cursor ∧
    f.Awaits bus.stream cursor f.awaiting

/-- The seq of the clock can be read where it ends an outage, and at the start unless its count
cannot be read either; and a foreign entry is not taken for one of the bus. -/
def Readable (bus : RedisBus) : RedisAction → Prop
  | .subscribe reply => reply.positionOf.seq = bus.stream.seq ∨ reply.positionOf.n = 0
  | .clock reply => ∀ answer ∈ reply, answer.positionOf.seq = bus.stream.seq
  | .foreign entry => entry.Harmless
  | _ => True

instance (bus : RedisBus) : ∀ action, Decidable (bus.Readable action)
  | .subscribe _ => inferInstanceAs (Decidable (_ ∨ _))
  | .clock reply => inferInstanceAs (Decidable (∀ answer ∈ reply, _))
  | .foreign _ => inferInstanceAs (Decidable (_ → _))
  | .append _ _ | .trim _ | .close | .read _ | .resume => inferInstanceAs (Decidable True)

end RedisBus

section Steps

variable {bus next : RedisBus} {stream : RedisStream} {f g : Follower} {cursor : StreamId}
  {asOf : ℕ}

theorem RedisBus.Sound.grows (h : bus.Sound) (hs : stream.Sound)
    (hgrows : bus.stream.Grows stream) :
    RedisBus.Sound { bus with stream := stream } := by
  refine ⟨hs, ?_⟩
  intro f hf
  obtain ⟨cursor, hkeeps, hawaits⟩ := h.2 f hf
  exact ⟨cursor, hkeeps.mono hgrows, hawaits.mono hgrows⟩

theorem Settled.now {head : ℕ} (h : head ≤ stream.reach) :
    Settled stream head stream.appended.length :=
  ⟨h, fun a ha _ => by rwa [List.take_length]⟩

theorem RedisStream.Sound.unread (h : stream.Sound) (cursor : StreamId) :
    Unread stream cursor ((stream.after cursor).map StreamEntry.read) stream.appended.length := by
  have hsublist : (stream.after cursor).Sublist stream.entries :=
    (List.take_sublist _ _).trans List.filter_sublist
  refine ⟨stream.after cursor, rfl, h.sorted.sublist hsublist, ?_⟩
  intro entry hentry
  have hmem := hsublist.subset hentry
  have hlt := (List.mem_filter.mp (List.mem_of_mem_take hentry)).2
  exact ⟨of_decide_eq_true hlt, h.known entry hmem,
    .now ((StreamId.time_le_time (h.under entry hmem)).trans (le_max_right _ _))⟩

theorem RedisBus.unread_readEntries (h : bus.stream.Sound) {outcome : ReadOutcome}
    {reads : List Entry} (hread : bus.readEntries cursor.text outcome = some (some reads)) :
    Unread bus.stream cursor reads bus.stream.appended.length := by
  cases outcome with
  | failed => cases hread
  | malformed reply =>
    simp only [RedisBus.readEntries] at hread
    split at hread
    · next hempty =>
      have heq := Option.some.inj hread
      rw [heq] at hempty
      have hnil : reads = [] := List.isEmpty_iff.mp hempty
      rw [hnil]
      exact ⟨[], rfl, List.Pairwise.nil, fun _ hmem => by cases hmem⟩
    · cases hread
  | answered shape =>
    simp only [RedisBus.readEntries, StreamId.ofText_text, Option.bind_eq_bind, Option.bind_some,
      readOf_wrap, Option.some.injEq] at hread
    rw [← hread]
    exact h.unread cursor

namespace Follower

theorem Awaits.close {awaiting : Awaiting} (h : f.Awaits stream cursor awaiting) :
    { f with closed := true }.Awaits stream cursor awaiting := by
  cases awaiting with
  | answer reads asOf => cases reads <;> exact h
  | position now asOf =>
    obtain ⟨hdown, hasOf, hplaces⟩ := h
    exact ⟨hdown, hasOf, fun place hmem => { hplaces place hmem with }⟩
  | read => trivial
  | clock => exact h
  | entries reads asOf => exact h
  | ended => trivial

theorem Keeps.start (hs : stream.Sound) {now : BusPosition} (hseq : now.seq ≤ stream.seq)
    (hn : now.n ≤ stream.n) (hreads : now.seq = stream.seq ∨ now.n = 0) :
    (Follower.start now).Keeps stream (StreamId.mk now.seq 0) where
  cursor_text := StreamId.text_mk_zero.symm
  head_le := le_rfl
  head_seq := hseq
  last_reach := hseq.trans (le_max_left _ _)
  expected := Nat.succ_le_succ hn
  events := fun _ hmem => by cases hmem
  sorted := List.Pairwise.nil
  gaps := fun _ hmem => by cases hmem
  times := fun _ hmem => by cases hmem
  covers := fun before call hprefix => by
    have := hprefix.length_le
    simp [Follower.start] at this
  counted := by
    intro a ha hhead hlt
    obtain ⟨haseq, -, -, hapos⟩ := hs.below a ha
    rcases hreads with hreads | hreads
    · exact absurd hhead (not_lt.mpr (haseq.trans_eq hreads.symm))
    · change a.n < now.n + 1 at hlt
      omega
  outages := fun before down after hsplit => by
    have := congrArg List.length hsplit
    simp [Follower.start] at this

theorem Keeps.places (h : f.Keeps stream cursor) (hs : stream.Sound) {now : BusPosition}
    (hseq : now.seq = stream.seq) (hn : now.n ≤ stream.n) :
    f.Places stream now stream.appended.length where
  settled := .now (hseq.trans_le (le_max_left _ _))
  newest := fun a ha => ((hs.below a (List.mem_of_mem_take ha)).1).trans_eq hseq.symm
  seq := hseq.le
  n := hn
  counts := fun a ha _ => ((hs.below a ha).1).trans_eq hseq.symm
  events := fun call hcall event hevent => (h.events call hcall event hevent).1.trans_eq hseq.symm
  head := h.head_seq.trans_eq hseq.symm

theorem awaiting_fail : (f.fail asOf).awaiting = .read := by
  unfold Follower.fail
  dsimp only
  split <;> rfl

theorem Keeps.resume (h : f.Keeps stream cursor) (hs : stream.Sound)
    (hawaits : f.Awaits stream cursor f.awaiting) (hresume : f.resume = some g) :
    ∃ cursor, g.Keeps stream cursor ∧ g.Awaits stream cursor g.awaiting := by
  have hstay : ∀ awaiting, { f with awaiting := awaiting }.Keeps stream cursor :=
    fun _ => { h with }
  unfold Follower.resume at hresume
  cases hw : f.awaiting with
  | read | clock | ended =>
    rw [hw] at hresume
    cases hresume
  | answer reads asOf =>
    simp only [hw] at hresume hawaits
    split at hresume
    · obtain rfl := Option.some.inj hresume
      exact ⟨cursor, hstay .ended, trivial⟩
    cases reads with
    | none =>
      obtain rfl := Option.some.inj hresume
      refine ⟨cursor, h.fail hawaits, ?_⟩
      rw [awaiting_fail]
      trivial
    | some reads =>
      obtain rfl := Option.some.inj hresume
      obtain ⟨hasOf, hunread, hlast⟩ := hawaits
      refine ⟨cursor, { h with }, ?_⟩
      cases hdown : f.down with
      | false => exact ⟨rfl, hasOf, hunread, hlast⟩
      | true => exact rfl
  | position now asOf =>
    simp only [hw] at hresume hawaits
    obtain ⟨-, hasOf, hplaces⟩ := hawaits
    cases now with
    | none =>
      obtain rfl := Option.some.inj hresume
      exact ⟨cursor, hstay .read, trivial⟩
    | some now =>
      obtain rfl := Option.some.inj hresume
      split
      · exact ⟨cursor, hstay .ended, trivial⟩
      · exact ⟨_, h.recover (hplaces now rfl) hasOf, trivial⟩
  | entries reads asOf =>
    simp only [hw] at hresume hawaits
    obtain ⟨hdown, hasOf, ⟨entries, rfl, hsorted, hall⟩, hlast⟩ := hawaits
    cases entries with
    | nil =>
      obtain rfl := Option.some.inj hresume
      exact ⟨cursor, hstay .read, trivial⟩
    | cons entry rest =>
      obtain rfl := Option.some.inj hresume
      obtain ⟨hlt, hknown, hsettled⟩ := hall entry List.mem_cons_self
      split
      · exact ⟨cursor, hstay .ended, trivial⟩
      · obtain ⟨hkeeps, hlast, hdown⟩ := h.deliver hs hlt hknown hsettled hlast hasOf hdown
        refine ⟨entry.id, { hkeeps with }, hdown, hasOf, ⟨rest, rfl, hsorted.of_cons, ?_⟩, hlast⟩
        intro later hlater
        obtain ⟨-, hknown, hsettled⟩ := hall later (List.mem_cons_of_mem _ hlater)
        exact ⟨List.rel_of_pairwise_cons hsorted hlater, hknown, hsettled⟩

end Follower

namespace RedisBus

theorem Sound.follow (h : bus.Sound) (hf : ∃ cursor, f.Keeps bus.stream cursor ∧
    f.Awaits bus.stream cursor f.awaiting) : (bus.follow f).Sound := by
  refine ⟨h.1, ?_⟩
  intro g hg
  obtain rfl := Option.some.inj hg
  exact hf

theorem Sound.step (h : bus.Sound) {action : RedisAction} (hread : bus.Readable action)
    (hstep : bus.step action = some next) : next.Sound := by
  cases action with
  | append now input =>
    simp only [RedisBus.step, Option.bind_eq_bind, Option.bind_eq_some_iff] at hstep
    obtain ⟨value, hvalue, hstep⟩ := hstep
    split at hstep
    · next hsafe =>
      obtain rfl := Option.some.inj hstep
      obtain ⟨hs, hgrows⟩ := h.1.append hvalue hsafe
      exact h.grows hs hgrows
    · cases hstep
  | foreign entry =>
    simp only [RedisBus.step, Option.bind_eq_bind, Option.bind_eq_some_iff] at hstep
    obtain ⟨stream, hadd, hstep⟩ := hstep
    obtain rfl := Option.some.inj hstep
    obtain ⟨hs, hgrows⟩ := h.1.foreign hread hadd
    exact h.grows hs hgrows
  | trim count =>
    obtain rfl := Option.some.inj hstep
    obtain ⟨hs, hgrows⟩ := h.1.trim count
    exact h.grows hs hgrows
  | subscribe reply =>
    simp only [RedisBus.step] at hstep
    split at hstep
    · next hpositions =>
      obtain rfl := Option.some.inj hstep
      obtain ⟨-, hseq, hn⟩ := hpositions
      exact h.follow ⟨_, .start h.1 (by omega) (by omega) hread, trivial⟩
    · cases hstep
  | close =>
    simp only [RedisBus.step, Option.bind_eq_bind, Option.bind_eq_some_iff] at hstep
    obtain ⟨f, hf, hstep⟩ := hstep
    obtain rfl := Option.some.inj hstep
    obtain ⟨cursor, hkeeps, hawaits⟩ := h.2 f hf
    exact h.follow ⟨cursor, { hkeeps with }, hawaits.close⟩
  | read outcome =>
    simp only [RedisBus.step, Option.bind_eq_bind, Option.bind_eq_some_iff] at hstep
    obtain ⟨f, hf, hstep⟩ := hstep
    obtain ⟨cursor, hkeeps, -⟩ := h.2 f hf
    split at hstep
    · obtain ⟨entries, hentries, hstep⟩ := Option.bind_eq_some_iff.mp hstep
      obtain rfl := Option.some.inj hstep
      refine h.follow ⟨cursor, { hkeeps with }, ?_⟩
      cases entries with
      | none => exact le_rfl
      | some reads =>
        rw [hkeeps.cursor_text] at hentries
        exact ⟨le_rfl, unread_readEntries h.1 hentries, .now hkeeps.last_reach⟩
    · cases hstep
  | clock reply =>
    simp only [RedisBus.step, Option.bind_eq_bind, Option.bind_eq_some_iff] at hstep
    obtain ⟨f, hf, hstep⟩ := hstep
    obtain ⟨cursor, hkeeps, hawaits⟩ := h.2 f hf
    split at hstep
    · next hclock =>
      rw [hclock] at hawaits
      split at hstep
      · next hpositions =>
        obtain rfl := Option.some.inj hstep
        refine h.follow ⟨cursor, { hkeeps with }, hawaits, le_rfl, ?_⟩
        intro place hplace
        obtain ⟨answer, hanswer, rfl⟩ := Option.map_eq_some_iff.mp hplace
        obtain ⟨-, hn⟩ := hpositions answer hanswer
        exact { hkeeps.places h.1 (hread answer hanswer) (by omega) with }
      · cases hstep
    · cases hstep
  | resume =>
    simp only [RedisBus.step, Option.bind_eq_bind, Option.bind_eq_some_iff] at hstep
    obtain ⟨f, hf, g, hresume, hstep⟩ := hstep
    obtain rfl := Option.some.inj hstep
    obtain ⟨cursor, hkeeps, hawaits⟩ := h.2 f hf
    exact h.follow (hkeeps.resume h.1 hawaits hresume)

theorem sound_create : RedisBus.create.Sound :=
  ⟨⟨.nil, List.forall_mem_nil _, le_rfl, rfl, .nil, List.forall_mem_nil _, List.forall_mem_nil _⟩,
    fun _ hmem => by cases hmem⟩

/-- A follower skips nothing silently, while the clock can be read and foreign entries are told
apart. -/
theorem follow_skips_nothing {actions : List RedisAction}
    (hrun : run RedisBus.step .create actions = some bus)
    (hreads : Along RedisBus.step Readable .create actions) (hf : bus.follower = some f) :
    f.InOrder ∧ f.Covers bus.stream.appended ∧ f.Recovers bus.stream.appended := by
  have hsound : bus.Sound :=
    run_invariant_along (fun _ _ _ hs hread hstep => hs.step hread hstep) hrun hreads sound_create
  obtain ⟨cursor, hkeeps, -⟩ := hsound.2 f hf
  refine ⟨⟨hkeeps.sorted, ?_⟩, hkeeps.covers, ?_⟩
  · intro seq hseq
    obtain ⟨call, hcall, event, hevent, rfl⟩ := Follower.mem_eventSeqs hseq
    exact (hkeeps.events call hcall event hevent).2.1
  · intro before down after hsplit hdown first hfirst
    rcases hkeeps.outages before down after hsplit hdown with ⟨-, hall⟩ | ⟨ends, hends, hended⟩
    · have hmem := List.mem_of_find?_eq_some hfirst
      have hfound := List.find?_some hfirst
      simp [hall first hmem] at hfound
    · rw [hends] at hfirst
      obtain rfl := Option.some.inj hfirst
      exact hended

/-- Two reads fail, the third is answered, and the clock replies `clock`; then the read is repeated.
-/
def outage (clock : Reply) : List RedisAction :=
  [.subscribe (.array [.null, .null]), .append 5 (.change [js "a"]), .read (.answered .map),
    .resume, .resume, .resume, .read .failed, .resume, .read .failed, .resume,
    .read (.answered .map), .resume, .clock (some clock), .resume,
    .read (.answered .resp3), .resume, .resume]

theorem follow_skips_nothing_outage : ∃ bus f,
    run RedisBus.step .create (outage (.array [.text (js "5"), .text (js "1")])) = some bus ∧
      bus.follower = some f ∧ f.calls.length = 3 ∧
        f.InOrder ∧ f.Covers bus.stream.appended ∧ f.Recovers bus.stream.appended := by
  have hreads : Along RedisBus.step Readable .create
      (outage (.array [.text (js "5"), .text (js "1")])) := by decide +kernel
  have hcalls : ((run RedisBus.step .create
      (outage (.array [.text (js "5"), .text (js "1")]))).bind fun bus =>
        bus.follower.map fun f => f.calls.length) = some 3 := by decide +kernel
  obtain ⟨bus, hrun, hfollower⟩ := Option.bind_eq_some_iff.mp hcalls
  obtain ⟨f, hf, hlength⟩ := Option.map_eq_some_iff.mp hfollower
  exact ⟨bus, f, hrun, hf, hlength, follow_skips_nothing hrun hreads hf⟩

/-- A clock reply that cannot be read ends the outage at seq 0, and the event comes again. -/
theorem event_twice_after_unread_clock : ¬∀ actions bus f,
    run RedisBus.step .create actions = some bus → bus.follower = some f →
      f.InOrder ∧ f.Covers bus.stream.appended ∧ f.Recovers bus.stream.appended := by
  intro h
  obtain ⟨⟨hsorted, -⟩, -⟩ := h (outage .null) _ _ rfl rfl
  revert hsorted
  decide +kernel

end RedisBus

end Steps

end Nifra.Live
