import Nifra.Tools.Executions

/-! # One key, one executor

The grants of one key follow each other: a newer one is given out when the older has expired,
and what has expired stays so. As the calls go on in the order in which they asked, a call that
enters its executor finds no live reservation of its key but its own.
-/

namespace Nifra.Tools

open Idempotency (EntryKey storageKey storageKey_injective)

variable {T O : Type*} [LinearOrder T]

namespace Executions

def Alive (s : Executions T O) (r : Reservation) : Prop :=
  ∃ e, s.store.entries.get (storageKey r.entryKey) = some e ∧ e.reservation = r.value ∧
    s.clock < e.expiresAt

def Entered (s : Executions T O) (i : ℕ) (r : Reservation) : Prop :=
  ∃ c, s.calls[i]? = some c ∧ c.executed = true ∧ c.reservation = some r

structure Consistent (s : Executions T O) : Prop where
  sound : ∀ c ∈ s.calls, c.Sound
  asked : ∀ a ∈ s.asked, ∃ c, s.calls[a.call]? = some c ∧ c.stop = .begun
  nodup : (s.asked.map Asked.call).Nodup
  reserved : ∀ i c r, s.calls[i]? = some c → c.reservation = some r → ⟨r, i⟩ ∈ s.grants
  values : (s.grants.map fun g => g.value).Nodup
  queue : ∃ rest, s.grants = (s.asked.filterMap grantOf).reverse ++ rest
  order : s.grants.Pairwise fun newer older =>
    newer.entryKey = older.entryKey → ¬ s.Alive older.toReservation

variable {s t : Executions T O}

theorem Consistent.init (store : ToolStore T) (clock : T) :
    (Executions.init store clock : Executions T O).Consistent := by
  constructor
  · intro c hc
    cases hc
  · intro a ha
    cases ha
  · exact List.nodup_nil
  · intro i c r hc
    cases hc
  · exact List.nodup_nil
  · exact ⟨[], rfl⟩
  · exact .nil

theorem Consistent.value_inj (h : s.Consistent) {g g' : Grant} (hg : g ∈ s.grants)
    (hg' : g' ∈ s.grants) (heq : g.value = g'.value) : g = g' :=
  List.inj_on_of_nodup_map h.values hg hg' heq

theorem Consistent.put (h : s.Consistent) {i : ℕ} {c c' : Call O} (hc : s.calls[i]? = some c)
    (hsound : c'.Sound) (hkeeps : c'.reservation = c.reservation)
    (hbegun : c.stop = .begun → c'.stop = .begun) : (s.put i c').Consistent := by
  have hi := (List.getElem?_eq_some_iff.mp hc).1
  constructor
  · intro d hd
    rcases List.mem_or_eq_of_mem_set hd with hd | rfl
    · exact h.sound d hd
    · exact hsound
  · intro a ha
    obtain ⟨d, hd, hstop⟩ := h.asked a ha
    by_cases heq : a.call = i
    · rw [heq, hc] at hd
      obtain rfl := Option.some.inj hd
      rw [heq]
      exact ⟨c', List.getElem?_set_self hi, hbegun hstop⟩
    · exact ⟨d, (List.getElem?_set_ne (Ne.symm heq)).trans hd, hstop⟩
  · exact h.nodup
  · intro j d r hd hr
    by_cases heq : j = i
    · subst heq
      obtain rfl := Option.some.inj ((List.getElem?_set_self hi).symm.trans hd)
      exact h.reserved j c r hc (hkeeps.symm.trans hr)
    · exact h.reserved j d r ((List.getElem?_set_ne (Ne.symm heq)).symm.trans hd) hr
  · exact h.values
  · exact h.queue
  · exact h.order

theorem Consistent.restore (h : s.Consistent) {store : ToolStore T} {clock : T}
    (halive : ∀ g ∈ s.grants,
      Alive { s with store := store, clock := clock } g.toReservation → s.Alive g.toReservation) :
    Consistent { s with store := store, clock := clock } := by
  constructor
  · exact h.sound
  · exact h.asked
  · exact h.nodup
  · exact h.reserved
  · exact h.values
  · exact h.queue
  · refine h.order.imp_of_mem ?_
    intro newer older _ holder horder hkey halive'
    exact horder hkey (halive older holder halive')

variable [Add T] [NatCast T]

theorem Alive.of_step {e : Event T O} (ht : s.step e = some t) {g : Grant}
    (hg : g ∈ s.grants) (halive : t.Alive g.toReservation) : s.Alive g.toReservation := by
  have hextends {s' : Executions T O} {store : ToolStore T} {t₁ t₂ : T}
      (hstore : store = s.store ∨ ToolStore.Extends s.store store t₁) (hclock : s.clock ≤ t₁)
      (htt : t₁ ≤ t₂) (hs : s'.store = store ∧ s'.clock = t₂) :
      s'.Alive g.toReservation → s.Alive g.toReservation := by
    rintro ⟨e, he, hvalue, hlive⟩
    rw [hs.1] at he
    rw [hs.2] at hlive
    rcases hstore with rfl | hstore
    · exact ⟨e, he, hvalue, (hclock.trans htt).trans_lt hlive⟩
    · obtain ⟨e', he', hres, rfl | hlive'⟩ := hstore.old he
      · exact ⟨e, he', hvalue, (hclock.trans htt).trans_lt hlive⟩
      · exact ⟨e', he', hres.trans hvalue, hclock.trans_lt hlive'⟩
  cases e with
  | call tool options intent =>
    obtain rfl := Option.some.inj ht
    exact halive
  | abort i =>
    obtain ⟨c, -, rfl⟩ := Option.map_eq_some_iff.mp ht
    exact halive
  | answer i a =>
    obtain ⟨c, -, ht⟩ := Option.bind_eq_some_iff.mp ht
    obtain ⟨c', -, rfl⟩ := Option.map_eq_some_iff.mp ht
    exact halive
  | begin i uuid t₁ t₂ =>
    obtain ⟨c, input, store, result, -, -, hclock, htt, hfresh, hstore, rfl⟩ := begin_cases ht
    obtain ⟨e, he, hvalue, hlive⟩ := halive
    have hlive' : s.clock < e.expiresAt := (hclock.trans htt).trans_lt hlive
    rcases hstore with ⟨rfl, -⟩ | ⟨answer, -, hstore⟩
    · exact ⟨e, he, hvalue, hlive'⟩
    · rcases ToolStore.begin_old hstore he with he | ⟨-, huuid, -⟩
      · exact ⟨e, he, hvalue, hlive'⟩
      · exact absurd (hvalue.symm.trans huuid) (hfresh g hg)
  | resume budget =>
    obtain ⟨a, asked, c, -, -, rfl⟩ := resume_cases ht
    exact halive
  | enter i budget =>
    obtain ⟨c, -, -, rfl⟩ := enter_cases ht
    exact halive
  | abandon i =>
    obtain ⟨c, next, -, -, ⟨-, rfl⟩ | ⟨r, store, -, hstore, rfl⟩⟩ := abandon_cases ht
    · exact halive
    · obtain ⟨e, he, hvalue, hlive⟩ := halive
      rcases hstore with rfl | ⟨b, hstore⟩
      · exact ⟨e, he, hvalue, hlive⟩
      · exact ⟨e, ToolStore.abandon_old hstore he, hvalue, hlive⟩
  | complete i t₁ t₂ =>
    obtain ⟨c, next, -, -, ⟨-, rfl⟩ | ⟨r, store, accepted, -, hclock, htt, hstore, rfl⟩⟩ :=
      complete_cases ht
    · exact halive
    · exact hextends (hstore.imp_right fun ⟨_, hb⟩ => ToolStore.complete_extends hb) hclock htt
        ⟨rfl, rfl⟩ halive
  | renew i t₁ t₂ =>
    obtain ⟨c, r, store, -, -, hclock, htt, hstore, rfl⟩ := renew_cases ht
    exact hextends (hstore.imp_right fun ⟨_, hb⟩ => ToolStore.renew_extends hb) hclock htt
      ⟨rfl, rfl⟩ halive
  | tick now =>
    obtain ⟨hclock, rfl⟩ := tick_cases ht
    obtain ⟨e, he, hvalue, hlive⟩ := halive
    exact ⟨e, he, hvalue, hclock.trans_lt hlive⟩

omit [Add T] [NatCast T] in
theorem Consistent.call (h : s.Consistent) (tool : ToolContract) (options : CallOptions)
    (intent : Except Bool Unit) :
    Consistent { s with calls := s.calls ++ [executeTool tool options intent] } := by
  have hold {i : ℕ} {c : Call O} (hc : s.calls[i]? = some c) :
      (s.calls ++ [executeTool tool options intent])[i]? = some c :=
    (List.getElem?_append_left (List.getElem?_eq_some_iff.mp hc).1).trans hc
  constructor
  · intro c hc
    rcases List.mem_append.mp hc with hc | hc
    · exact h.sound c hc
    · rw [List.mem_singleton.mp hc]
      exact Call.sound_executeTool tool options intent
  · intro a ha
    obtain ⟨c, hc, hstop⟩ := h.asked a ha
    exact ⟨c, hold hc, hstop⟩
  · exact h.nodup
  · intro i c r hc hr
    rcases Nat.lt_or_ge i s.calls.length with hlt | hge
    · exact h.reserved i c r ((List.getElem?_append_left hlt).symm.trans hc) hr
    · rw [List.getElem?_append_right hge, List.getElem?_singleton] at hc
      split_ifs at hc
      obtain rfl := Option.some.inj hc
      cases intent <;> cases hr
  · exact h.values
  · exact h.queue
  · exact h.order

omit [Add T] [NatCast T] in
theorem Consistent.resume (h : s.Consistent) {budget : Except Bool Bool}
    (ht : s.resume budget = some t) : t.Consistent := by
  obtain ⟨a, asked, c, hasked, hc, rfl⟩ := resume_cases ht
  have hi := (List.getElem?_eq_some_iff.mp hc).1
  obtain ⟨c', hc', hstop⟩ := h.asked a (hasked ▸ List.mem_cons_self)
  obtain rfl := Option.some.inj (hc.symm.trans hc')
  have hsound := h.sound c (List.mem_of_getElem? hc)
  have hholds := hsound.holds
  rw [hstop] at hholds
  have hnodup := h.nodup
  rw [hasked, List.map_cons, List.nodup_cons] at hnodup
  constructor
  · intro d hd
    rcases List.mem_or_eq_of_mem_set hd with hd | rfl
    · exact h.sound d hd
    · exact Call.sound_afterBegin hsound.facts hholds.1 hholds.2 _ _ _
  · intro b hb
    obtain ⟨d, hd, hstop⟩ := h.asked b (hasked ▸ List.mem_cons_of_mem _ hb)
    have hne : a.call ≠ b.call := fun heq => hnodup.1 (heq ▸ List.mem_map_of_mem hb)
    exact ⟨d, (List.getElem?_set_ne hne).trans hd, hstop⟩
  · exact hnodup.2
  · intro j d r hd hr
    by_cases heq : j = a.call
    · -- The reservation is the one that `begin` answered.
      subst heq
      obtain rfl := Option.some.inj ((List.getElem?_set_self hi).symm.trans hd)
      obtain ⟨hresult, hinput⟩ := Call.reservation_afterBegin hholds.1.2.1 hr
      have hgrant : grantOf a = some ⟨r, a.call⟩ := by
        rw [grantOf, hresult, ← hinput]
      obtain ⟨rest, hrest⟩ := h.queue
      change _ ∈ s.grants
      rw [hrest, List.mem_append, List.mem_reverse]
      exact Or.inl (List.mem_filterMap.mpr ⟨a, hasked ▸ List.mem_cons_self, hgrant⟩)
    · exact h.reserved j d r ((List.getElem?_set_ne (Ne.symm heq)).symm.trans hd) hr
  · exact h.values
  · obtain ⟨rest, hrest⟩ := h.queue
    rw [hasked, List.filterMap_cons] at hrest
    cases hgrant : grantOf a with
    | none => exact ⟨rest, by rw [hgrant] at hrest; exact hrest⟩
    | some g =>
      rw [hgrant] at hrest
      refine ⟨g :: rest, hrest.trans ?_⟩
      rw [List.reverse_cons, List.append_assoc, List.singleton_append]
  · exact h.order

theorem Consistent.begin (h : s.Consistent) {i : ℕ} {uuid : JSString} {t₁ t₂ : T}
    (ht : s.begin i uuid t₁ t₂ = some t) : t.Consistent := by
  have hstep : s.step (.begin i uuid t₁ t₂) = some t := ht
  have hdead : ∀ {g : Grant}, g ∈ s.grants → t.Alive g.toReservation → s.Alive g.toReservation :=
    fun hg => Alive.of_step hstep hg
  obtain ⟨c, input, store, result, hc, hstop, hclock, htt, hfresh, hstore, rfl⟩ := begin_cases ht
  have hi := (List.getElem?_eq_some_iff.mp hc).1
  have hsound := h.sound c (List.mem_of_getElem? hc)
  have hholds := hsound.holds
  rw [hstop] at hholds
  have hne {a : Asked} (ha : a ∈ s.asked) : i ≠ a.call := by
    rintro rfl
    obtain ⟨d, hd, hbegun⟩ := h.asked a ha
    obtain rfl := Option.some.inj (hc.symm.trans hd)
    rw [hstop] at hbegun
    cases hbegun
  have hgrant {g : Grant} (hg : g ∈ grantOf ⟨i, input, result⟩) :
      g.value = uuid ∧ g.entryKey = input ∧
        ∀ e, s.store.entries.get (storageKey input) = some e → e.expiresAt ≤ t₁ := by
    rcases hstore with ⟨-, hnone⟩ | ⟨answer, rfl, hstore⟩
    · rw [hnone] at hg
      cases hg
    · cases answer with
      | new value =>
        obtain rfl : ⟨⟨input, value⟩, i⟩ = g := Option.some.inj hg
        obtain ⟨hvalue, hexpired⟩ := ToolStore.begin_new hstore
        exact ⟨hvalue, rfl, hexpired⟩
      | duplicate | inFlight | capacity => cases hg
  constructor
  · intro d hd
    rcases List.mem_or_eq_of_mem_set hd with hd | rfl
    · exact h.sound d hd
    · exact ⟨hsound.facts, hholds⟩
  · intro a ha
    rcases List.mem_append.mp ha with ha | ha
    · obtain ⟨d, hd, hbegun⟩ := h.asked a ha
      exact ⟨d, (List.getElem?_set_ne (hne ha)).trans hd, hbegun⟩
    · rw [List.mem_singleton.mp ha]
      exact ⟨_, List.getElem?_set_self hi, rfl⟩
  · rw [List.map_append, List.nodup_append]
    refine ⟨h.nodup, List.nodup_singleton _, ?_⟩
    intro j hj k hk
    obtain ⟨a, ha, rfl⟩ := List.mem_map.mp hj
    rw [List.mem_singleton.mp hk]
    exact (hne ha).symm
  · intro j d r hd hr
    refine List.mem_append_right _ ?_
    by_cases heq : j = i
    · subst heq
      obtain rfl := Option.some.inj ((List.getElem?_set_self hi).symm.trans hd)
      exact h.reserved j c r hc hr
    · exact h.reserved j d r ((List.getElem?_set_ne (Ne.symm heq)).symm.trans hd) hr
  · rw [List.map_append, List.nodup_append]
    refine ⟨?_, h.values, ?_⟩
    · cases grantOf ⟨i, input, result⟩ with
      | none => exact List.nodup_nil
      | some g => exact List.nodup_singleton _
    · intro v hv w hw
      obtain ⟨g, hg, rfl⟩ := List.mem_map.mp hv
      obtain ⟨g', hg', rfl⟩ := List.mem_map.mp hw
      rw [(hgrant (Option.mem_toList.mp hg)).1]
      exact (hfresh g' hg').symm
  · obtain ⟨rest, hrest⟩ := h.queue
    refine ⟨rest, ?_⟩
    have hlast : [(⟨i, input, result⟩ : Asked)].filterMap grantOf =
        (grantOf ⟨i, input, result⟩).toList := by
      cases hg : grantOf ⟨i, input, result⟩ <;> simp [hg]
    have hsingle : (grantOf ⟨i, input, result⟩).toList.reverse =
        (grantOf ⟨i, input, result⟩).toList := by
      cases grantOf ⟨i, input, result⟩ <;> rfl
    change _ ++ s.grants = _
    rw [List.filterMap_append, hlast, List.reverse_append, hsingle, List.append_assoc, ← hrest]
  · refine List.pairwise_append.mpr ⟨?_, ?_, ?_⟩
    · cases grantOf ⟨i, input, result⟩ with
      | none => exact .nil
      | some g => exact List.pairwise_singleton _ _
    · refine h.order.imp_of_mem ?_
      intro newer older _ holder horder hkey halive
      exact horder hkey (hdead holder halive)
    · -- A key is given out when the reservation it had before has expired.
      intro g hg older holder hkey halive
      obtain ⟨-, hinput, hexpired⟩ := hgrant (Option.mem_toList.mp hg)
      obtain ⟨e, he, hvalue, hlive⟩ := halive
      rw [← hkey, hinput] at he
      rcases hstore with ⟨rfl, -⟩ | ⟨answer, -, hstore⟩
      · exact absurd (hexpired e he) (not_le.mpr (htt.trans_lt hlive))
      · rcases ToolStore.begin_old hstore he with he | ⟨-, huuid, -⟩
        · exact absurd (hexpired e he) (not_le.mpr (htt.trans_lt hlive))
        · exact hfresh older holder (hvalue.symm.trans huuid)

theorem Consistent.step (h : s.Consistent) {e : Event T O} (ht : s.step e = some t) :
    t.Consistent := by
  have hdead : ∀ g ∈ s.grants, t.Alive g.toReservation → s.Alive g.toReservation :=
    fun g hg => Alive.of_step ht hg
  cases e with
  | call tool options intent =>
    obtain rfl := Option.some.inj ht
    exact h.call tool options intent
  | abort i =>
    obtain ⟨c, hc, rfl⟩ := Option.map_eq_some_iff.mp ht
    exact h.put hc (h.sound c (List.mem_of_getElem? hc)).abort rfl id
  | answer i a =>
    obtain ⟨c, hc, ht⟩ := Option.bind_eq_some_iff.mp ht
    obtain ⟨c', hc', rfl⟩ := Option.map_eq_some_iff.mp ht
    refine h.put hc ((h.sound c (List.mem_of_getElem? hc)).answer hc') (Call.keeps_answer hc').1 ?_
    intro hstop
    rw [Call.answer_begun hstop] at hc'
    cases hc'
  | begin i uuid t₁ t₂ => exact h.begin ht
  | resume budget => exact h.resume ht
  | enter i budget =>
    obtain ⟨c, hc, hstop, rfl⟩ := enter_cases ht
    have hsound := h.sound c (List.mem_of_getElem? hc)
    have hholds := hsound.holds
    rw [hstop] at hholds
    obtain ⟨hfresh, happroved, hnone⟩ := hholds
    refine h.put hc ?_ (Call.keeps_enter budget) ?_
    · refine Call.sound_enter hsound.facts hfresh.unentered happroved ?_ budget
      intro hsome
      rw [hnone] at hsome
      cases hsome
    · intro hbegun
      rw [hstop] at hbegun
      cases hbegun
  | abandon i =>
    obtain ⟨c, next, hc, hstop, hcase⟩ := abandon_cases ht
    have hsound := h.sound c (List.mem_of_getElem? hc)
    have hholds := hsound.holds
    rw [hstop] at hholds
    have hbegun {c' : Call O} (hbegun : c.stop = .begun) : c'.stop = .begun := by
      rw [hstop] at hbegun
      cases hbegun
    rcases hcase with ⟨hnone, rfl⟩ | ⟨r, store, hr, -, rfl⟩
    · exact h.put hc (Call.sound_settle_none hsound.facts hnone hholds.1.2 hholds.2 false) rfl hbegun
    · exact (h.put hc (Call.sound_settle_abandoned hsound.facts hr hholds.1 hholds.2) rfl
        hbegun).restore hdead
  | complete i t₁ t₂ =>
    obtain ⟨c, next, hc, hstop, hcase⟩ := complete_cases ht
    have hsound := h.sound c (List.mem_of_getElem? hc)
    have hholds := hsound.holds
    rw [hstop] at hholds
    have hbegun {c' : Call O} (hbegun : c.stop = .begun) : c'.stop = .begun := by
      rw [hstop] at hbegun
      cases hbegun
    rcases hcase with ⟨hnone, rfl⟩ | ⟨r, store, accepted, hr, -, -, -, rfl⟩
    · exact h.put hc (Call.sound_settle_none hsound.facts hnone hholds.1.2 hholds.2 true) rfl hbegun
    · exact (h.put hc (Call.sound_settle_completed hsound.facts hr hholds.1 hholds.2 accepted) rfl
        hbegun).restore hdead
  | renew i t₁ t₂ =>
    obtain ⟨c, r, store, -, -, -, -, -, rfl⟩ := renew_cases ht
    exact h.restore hdead
  | tick now =>
    obtain ⟨-, rfl⟩ := tick_cases ht
    exact h.restore hdead

omit [LinearOrder T] [Add T] [NatCast T] in
theorem grantOf_call {a : Asked} {g : Grant} (h : grantOf a = some g) : g.call = a.call := by
  unfold grantOf at h
  split at h
  · rw [← Option.some.inj h]
  · cases h

omit [LinearOrder T] [Add T] [NatCast T] in
theorem Entered.of_set {i j : ℕ} {c c' : Call O} {r : Reservation}
    (hc : s.calls[j]? = some c) (hcalls : t.calls = s.calls.set j c') (hkeeps : c.Keeps c')
    (h : t.Entered i r) : s.Entered i r := by
  have hj := (List.getElem?_eq_some_iff.mp hc).1
  obtain ⟨d, hd, hexecuted, hr⟩ := h
  rw [hcalls] at hd
  by_cases heq : i = j
  · subst heq
    obtain rfl := Option.some.inj ((List.getElem?_set_self hj).symm.trans hd)
    exact ⟨c, hc, hkeeps.2.symm.trans hexecuted, hkeeps.1.symm.trans hr⟩
  · exact ⟨d, (List.getElem?_set_ne (Ne.symm heq)).symm.trans hd, hexecuted, hr⟩

omit [LinearOrder T] [Add T] [NatCast T] in
theorem Entered.set {i j : ℕ} {c c' : Call O} {r : Reservation} (hc : s.calls[j]? = some c)
    (hcalls : t.calls = s.calls.set j c') (hkeeps : c.executed = true → c.Keeps c')
    (h : s.Entered i r) : t.Entered i r := by
  have hj := (List.getElem?_eq_some_iff.mp hc).1
  obtain ⟨d, hd, hexecuted, hr⟩ := h
  by_cases heq : i = j
  · subst heq
    obtain rfl := Option.some.inj (hc.symm.trans hd)
    obtain ⟨hr', hexecuted'⟩ := hkeeps hexecuted
    exact ⟨c', hcalls ▸ List.getElem?_set_self hj, hexecuted'.trans hexecuted, hr'.trans hr⟩
  · exact ⟨d, hcalls ▸ (List.getElem?_set_ne (Ne.symm heq)).trans hd, hexecuted, hr⟩

theorem Entered.step (h : s.Consistent) {e : Event T O} (ht : s.step e = some t) {i : ℕ}
    {r : Reservation} (hi : s.Entered i r) : t.Entered i r := by
  cases e with
  | call tool options intent =>
    obtain rfl := Option.some.inj ht
    obtain ⟨c, hc, hexecuted, hr⟩ := hi
    have hlt := (List.getElem?_eq_some_iff.mp hc).1
    exact ⟨c, (List.getElem?_append_left hlt).trans hc, hexecuted, hr⟩
  | abort j =>
    obtain ⟨c, hc, rfl⟩ := Option.map_eq_some_iff.mp ht
    exact hi.set hc rfl fun _ => Call.keeps_abort
  | answer j a =>
    obtain ⟨c, hc, ht⟩ := Option.bind_eq_some_iff.mp ht
    obtain ⟨c', hc', rfl⟩ := Option.map_eq_some_iff.mp ht
    exact hi.set hc rfl fun _ => Call.keeps_answer hc'
  | begin j uuid t₁ t₂ =>
    obtain ⟨c, input, store, result, hc, -, -, -, -, -, rfl⟩ := begin_cases ht
    exact hi.set hc rfl fun _ => Call.keeps_stop _
  | resume budget =>
    obtain ⟨a, asked, c, hasked, hc, rfl⟩ := resume_cases ht
    obtain ⟨c', hc', hstop⟩ := h.asked a (hasked ▸ List.mem_cons_self)
    obtain rfl := Option.some.inj (hc.symm.trans hc')
    have hholds := (h.sound c (List.mem_of_getElem? hc)).holds
    rw [hstop] at hholds
    exact hi.set hc rfl fun hexecuted => Bool.noConfusion (hexecuted.symm.trans hholds.1.1)
  | enter j budget =>
    obtain ⟨c, hc, hstop, rfl⟩ := enter_cases ht
    have hholds := (h.sound c (List.mem_of_getElem? hc)).holds
    rw [hstop] at hholds
    exact hi.set hc rfl fun hexecuted => Bool.noConfusion (hexecuted.symm.trans hholds.1.1)
  | abandon j =>
    obtain ⟨c, next, hc, -, ⟨-, rfl⟩ | ⟨r', store, -, -, rfl⟩⟩ := abandon_cases ht
    · exact hi.set hc rfl fun _ => Call.keeps_settle _ _ _
    · exact hi.set hc rfl fun _ => Call.keeps_settle _ _ _
  | complete j t₁ t₂ =>
    obtain ⟨c, next, hc, -, ⟨-, rfl⟩ | ⟨r', store, accepted, -, -, -, -, rfl⟩⟩ := complete_cases ht
    · exact hi.set hc rfl fun _ => Call.keeps_settle _ _ _
    · exact hi.set hc rfl fun _ => Call.keeps_settle _ _ _
  | renew j t₁ t₂ =>
    obtain ⟨c, r', store, -, -, -, -, -, rfl⟩ := renew_cases ht
    exact hi
  | tick now =>
    obtain ⟨-, rfl⟩ := tick_cases ht
    exact hi

theorem Entered.of_step (h : s.Consistent) {e : Event T O} (ht : s.step e = some t) {i : ℕ}
    {r : Reservation} (hr : t.Entered i r) :
    s.Entered i r ∨ ∃ budget a asked, e = .resume budget ∧ s.asked = a :: asked ∧ a.call = i ∧
      grantOf a = some ⟨r, i⟩ := by
  cases e with
  | call tool options intent =>
    obtain rfl := Option.some.inj ht
    obtain ⟨c, hc, hexecuted, hr⟩ := hr
    rcases Nat.lt_or_ge i s.calls.length with hlt | hge
    · exact Or.inl ⟨c, (List.getElem?_append_left hlt).symm.trans hc, hexecuted, hr⟩
    · rw [List.getElem?_append_right hge, List.getElem?_singleton] at hc
      split_ifs at hc
      obtain rfl := Option.some.inj hc
      cases intent <;> cases hr
  | abort j =>
    obtain ⟨c, hc, rfl⟩ := Option.map_eq_some_iff.mp ht
    exact Or.inl (hr.of_set hc rfl Call.keeps_abort)
  | answer j a =>
    obtain ⟨c, hc, ht⟩ := Option.bind_eq_some_iff.mp ht
    obtain ⟨c', hc', rfl⟩ := Option.map_eq_some_iff.mp ht
    exact Or.inl (hr.of_set hc rfl (Call.keeps_answer hc'))
  | begin j uuid t₁ t₂ =>
    obtain ⟨c, input, store, result, hc, -, -, -, -, -, rfl⟩ := begin_cases ht
    exact Or.inl (hr.of_set hc rfl (Call.keeps_stop _))
  | resume budget =>
    obtain ⟨a, asked, c, hasked, hc, rfl⟩ := resume_cases ht
    have hi := (List.getElem?_eq_some_iff.mp hc).1
    obtain ⟨c', hc', hstop⟩ := h.asked a (hasked ▸ List.mem_cons_self)
    obtain rfl := Option.some.inj (hc.symm.trans hc')
    have hholds := (h.sound c (List.mem_of_getElem? hc)).holds
    rw [hstop] at hholds
    obtain ⟨d, hd, hexecuted, hr⟩ := hr
    by_cases heq : i = a.call
    · subst heq
      obtain rfl := Option.some.inj ((List.getElem?_set_self hi).symm.trans hd)
      obtain ⟨hresult, hinput⟩ := Call.reservation_afterBegin hholds.1.2.1 hr
      exact Or.inr ⟨budget, a, asked, rfl, hasked, rfl, by rw [grantOf, hresult, ← hinput]⟩
    · exact Or.inl ⟨d, (List.getElem?_set_ne (Ne.symm heq)).symm.trans hd, hexecuted, hr⟩
  | enter j budget =>
    -- A call without a policy has no reservation.
    obtain ⟨c, hc, hstop, rfl⟩ := enter_cases ht
    have hj := (List.getElem?_eq_some_iff.mp hc).1
    have hholds := (h.sound c (List.mem_of_getElem? hc)).holds
    rw [hstop] at hholds
    obtain ⟨d, hd, hexecuted, hr⟩ := hr
    by_cases heq : i = j
    · subst heq
      obtain rfl := Option.some.inj ((List.getElem?_set_self hj).symm.trans hd)
      have hnone : c.reservation = none := hholds.1.2.1
      exact absurd (hnone.symm.trans ((Call.keeps_enter budget).symm.trans hr)) nofun
    · exact Or.inl ⟨d, (List.getElem?_set_ne (Ne.symm heq)).symm.trans hd, hexecuted, hr⟩
  | abandon j =>
    obtain ⟨c, next, hc, -, ⟨-, rfl⟩ | ⟨r', store, -, -, rfl⟩⟩ := abandon_cases ht
    · exact Or.inl (hr.of_set hc rfl (Call.keeps_settle _ _ _))
    · exact Or.inl (hr.of_set hc rfl (Call.keeps_settle _ _ _))
  | complete j t₁ t₂ =>
    obtain ⟨c, next, hc, -, ⟨-, rfl⟩ | ⟨r', store, accepted, -, -, -, -, rfl⟩⟩ := complete_cases ht
    · exact Or.inl (hr.of_set hc rfl (Call.keeps_settle _ _ _))
    · exact Or.inl (hr.of_set hc rfl (Call.keeps_settle _ _ _))
  | renew j t₁ t₂ =>
    obtain ⟨c, r', store, -, -, -, -, -, rfl⟩ := renew_cases ht
    exact Or.inl hr
  | tick now =>
    obtain ⟨-, rfl⟩ := tick_cases ht
    exact Or.inl hr

theorem entered_of_alive (h : s.Consistent) {e : Event T O} (ht : s.step e = some t) {i j : ℕ}
    {r r' : Reservation} (hi : s.Entered i r) (hij : j ≠ i) (hkey : r'.entryKey = r.entryKey)
    (halive : t.Alive r) (hj : t.Entered j r') : s.Entered j r' := by
  rcases Entered.of_step h ht hj with hj | ⟨budget, a, asked, rfl, hasked, rfl, hgrant⟩
  · exact hj
  obtain ⟨c, hc, hexecuted, hr⟩ := hi
  have hmem := h.reserved i c r hc hr
  have halive' : s.Alive r := Alive.of_step ht hmem halive
  obtain ⟨rest, hrest⟩ := h.queue
  rw [hasked, List.filterMap_cons_some hgrant, List.reverse_cons] at hrest
  have horder := h.order
  rw [hrest] at horder hmem
  rcases List.mem_append.mp hmem with hmem | hmem
  · -- A call that waits has not entered its executor.
    exfalso
    rcases List.mem_append.mp hmem with hmem | hmem
    · obtain ⟨b, hb, hgrant'⟩ := List.mem_filterMap.mp (List.mem_reverse.mp hmem)
      obtain ⟨c', hc', hstop⟩ := h.asked b (hasked ▸ List.mem_cons_of_mem _ hb)
      rw [← grantOf_call hgrant'] at hc'
      obtain rfl := Option.some.inj (hc.symm.trans hc')
      have hholds := (h.sound c (List.mem_of_getElem? hc)).holds
      rw [hstop] at hholds
      exact Bool.noConfusion (hexecuted.symm.trans hholds.1.1)
    · exact hij (congrArg Grant.call (List.mem_singleton.mp hmem)).symm
  · have hlast := (List.pairwise_append.mp horder).2.2 _
      (List.mem_append_right _ List.mem_cons_self) _ hmem
    exact absurd halive' (hlast hkey)

theorem kept_of_step (h : s.Consistent) {e : Event T O} (ht : s.step e = some t) {i : ℕ}
    {r : Reservation} (hi : s.Entered i r) {entry : ToolEntry T}
    (hentry : s.store.entries.get (storageKey r.entryKey) = some entry)
    (hvalue : entry.reservation = r.value) :
    entry.expiresAt ≤ t.clock ∨
      ∃ entry', t.store.entries.get (storageKey r.entryKey) = some entry' ∧
        entry'.reservation = r.value := by
  have hsame : ∃ entry', s.store.entries.get (storageKey r.entryKey) = some entry' ∧
      entry'.reservation = r.value := ⟨entry, hentry, hvalue⟩
  have hextends {store : ToolStore T} {t₁ : T}
      (hstore : store = s.store ∨ ToolStore.Extends s.store store t₁) :
      ∃ entry', store.entries.get (storageKey r.entryKey) = some entry' ∧
        entry'.reservation = r.value := by
    rcases hstore with rfl | hstore
    · exact hsame
    · obtain ⟨entry', hentry', hres⟩ := hstore.keeps hentry
      exact ⟨entry', hentry', hres.trans hvalue⟩
  cases e with
  | call tool options intent =>
    obtain rfl := Option.some.inj ht
    exact Or.inr hsame
  | abort j =>
    obtain ⟨c, -, rfl⟩ := Option.map_eq_some_iff.mp ht
    exact Or.inr hsame
  | answer j a =>
    obtain ⟨c, -, ht⟩ := Option.bind_eq_some_iff.mp ht
    obtain ⟨c', -, rfl⟩ := Option.map_eq_some_iff.mp ht
    exact Or.inr hsame
  | begin j uuid t₁ t₂ =>
    obtain ⟨c, input, store, result, -, -, -, htt, -, hstore, rfl⟩ := begin_cases ht
    rcases hstore with ⟨rfl, -⟩ | ⟨answer, -, hstore⟩
    · exact Or.inr hsame
    · rcases le_or_gt entry.expiresAt t₂ with hexpired | hlive
      · exact Or.inl hexpired
      · exact Or.inr ⟨entry, ToolStore.begin_keeps hstore htt hentry hlive, hvalue⟩
  | resume budget =>
    obtain ⟨a, asked, c, -, -, rfl⟩ := resume_cases ht
    exact Or.inr hsame
  | enter j budget =>
    obtain ⟨c, -, -, rfl⟩ := enter_cases ht
    exact Or.inr hsame
  | abandon j =>
    obtain ⟨c, next, hc, hstop, ⟨-, rfl⟩ | ⟨r', store, hr', hstore, rfl⟩⟩ := abandon_cases ht
    · exact Or.inr hsame
    · rcases hstore with rfl | ⟨b, hstore⟩
      · exact Or.inr hsame
      · refine Or.inr ⟨entry, ToolStore.abandon_keeps hstore hentry ?_, hvalue⟩
        -- Another call's reservation is another one, and this call has entered its executor.
        intro heq
        obtain ⟨d, hd, hexecuted, hr⟩ := hi
        have hgrants := h.value_inj (h.reserved i d r hd hr) (h.reserved j c r' hc hr')
          (hvalue.symm.trans heq)
        obtain rfl : i = j := congrArg Grant.call hgrants
        obtain rfl := Option.some.inj (hc.symm.trans hd)
        have hholds := (h.sound c (List.mem_of_getElem? hc)).holds
        rw [hstop] at hholds
        exact Bool.noConfusion (hexecuted.symm.trans hholds.1.1)
  | complete j t₁ t₂ =>
    obtain ⟨c, next, -, -, ⟨-, rfl⟩ | ⟨r', store, accepted, -, -, -, hstore, rfl⟩⟩ :=
      complete_cases ht
    · exact Or.inr hsame
    · exact Or.inr (hextends (hstore.imp_right fun ⟨_, hb⟩ => ToolStore.complete_extends hb))
  | renew j t₁ t₂ =>
    obtain ⟨c, r', store, -, -, -, -, hstore, rfl⟩ := renew_cases ht
    exact Or.inr (hextends (hstore.imp_right fun ⟨_, hb⟩ => ToolStore.renew_extends hb))
  | tick now =>
    obtain ⟨-, rfl⟩ := tick_cases ht
    exact Or.inr hsame

end Executions

end Nifra.Tools
