import Nifra.Lib.Runs
import Nifra.Live.HubObjectInvariant

/-! # What the hub's object remembers

Every step of the object keeps the invariant, as long as a crash comes when the raised floor is
stored.
-/

namespace Nifra.Live

open Revocations Runs

section Appends

variable {options : HubObjectOptions} {w next : HubWorld} {o : HubObject} {ttl : ℕ}
  {input : LiveBusInput} {event : LiveBusEvent} {now : ℤ} {seq : ℕ} {floor : Option ℕ}

theorem revocations_apply (o : HubObject) (event : LiveBusEvent) (now : ℤ) (derived : Bool) :
    event.input.revocation? = none ∧
        (o.applyEvent options event now derived).revocations = o.revocations ∨
      (∃ revocation, event.input.revocation? = some revocation ∧
        (o.applyEvent options event now derived).revocations =
          o.revocations.apply revocation event.seq now) ∨
      (o.applyEvent options event now derived).revocations = o.revocations.raise event.seq := by
  unfold HubObject.applyEvent HubObject.revocations
  dsimp only
  cases hcore : (if derived then o.state.core.applyEvent options.hub event now else none) with
  | none => exact Or.inr (Or.inr rfl)
  | some core =>
    split at hcore
    · rcases Runtime.revocations_applyEvent hcore with ⟨hnone, hsame⟩ | ⟨revocation, hsome, happly⟩
      · exact Or.inl ⟨hnone, hsame⟩
      · exact Or.inr (Or.inl ⟨revocation, hsome, happly⟩)
    · cases hcore

theorem seq_le_apply_floor {r : Revocations} {revocation : LiveRevocation} (h : Whole revocation)
    (seq : ℕ) (now : ℤ) : seq ≤ (r.apply revocation seq now).floor := by
  have hraise : seq ≤ ((r.prune now).store revocation ⟨seq, now⟩).floor := by
    rw [store_whole h]
    exact le_raise_floor.1
  unfold Revocations.apply
  dsimp only
  split
  · exact hraise.trans le_raise_floor.2
  · exact hraise

theorem Revocations.Faithful.applyEvent {head : ℕ} {past : List Applied} {raised : List ℕ}
    (h : o.revocations.Faithful head past raised now) (httl : o.revocations.ttlMs = ttl * 1000)
    (hseq : ∀ b ∈ past, b.seq ≤ event.seq) (hnow : ∀ b ∈ past, b.now ≤ now) (derived : Bool) :
    let r := (o.applyEvent options event now derived).revocations
    o.revocations.floor ≤ r.floor ∧ r.ttlMs = ttl * 1000 ∧
      (∀ revocation ∈ event.input.revocation?, Whole revocation → event.seq ≤ r.floor) ∧
      ∃ past' raised', r.Faithful head past' raised' now ∧
        (∀ b ∈ past', b.seq ≤ event.seq ∧ b.now ≤ now) ∧ (∀ b ∈ past, b ∈ past') ∧
          ∀ revocation ∈ event.input.revocation?,
            event.seq ≤ r.floor ∨ ⟨revocation, event.seq, now⟩ ∈ past' := by
  have hpast : ∀ b ∈ past, b.seq ≤ event.seq ∧ b.now ≤ now := fun b hb => ⟨hseq b hb, hnow b hb⟩
  dsimp only
  rcases revocations_apply o event now derived with
    ⟨hnone, heq⟩ | ⟨revocation, hsome, heq⟩ | heq
  · rw [heq, hnone]
    exact ⟨le_rfl, httl, nofun, past, raised, h, hpast, fun _ hb => hb, nofun⟩
  · rw [heq, hsome]
    refine ⟨Revocations.le_apply_floor, apply_ttlMs.trans httl, ?_, _, _,
      h.apply (a := ⟨revocation, event.seq, now⟩) hseq hnow le_rfl, ?_, ?_, ?_⟩
    · intro other hother hwhole
      obtain rfl := Option.some.inj hother
      exact seq_le_apply_floor hwhole _ _
    · intro b hb
      rcases List.mem_append.mp hb with hb | hb
      · exact hpast b hb
      · rw [List.mem_singleton.mp hb]
        exact ⟨le_rfl, le_rfl⟩
    · exact fun b hb => List.mem_append_left _ hb
    · intro other hother
      obtain rfl := Option.some.inj hother
      exact Or.inr (List.mem_append_right _ (List.mem_singleton_self _))
  · rw [heq]
    exact ⟨le_raise_floor.2, httl, fun _ _ _ => le_raise_floor.1, past, _, h.raise hseq, hpast,
      fun _ hb => hb, fun _ _ => Or.inl le_raise_floor.1⟩

theorem kept?_or_whole {revocation : LiveRevocation} (h : input.revocation? = some revocation) :
    revocation ∈ input.kept? ∨ Whole revocation := by
  obtain ⟨sub, key⟩ := revocation
  cases sub with
  | some sub => exact Or.inl (by simp [LiveBusInput.kept?, h])
  | none =>
    cases key with
    | some key => exact Or.inl (by simp [LiveBusInput.kept?, h])
    | none => exact Or.inr ⟨rfl, rfl⟩

theorem Recalled.stored {storage next : HubStorage} {clock : ℤ} {floor : ℕ} {a : Applied}
    (h : Recalled ttl storage clock floor a)
    (hmem : ∀ entry ∈ storage.revoked, entry ∈ next.revoked) : Recalled ttl next clock floor a :=
  h.imp_right (Or.imp_left fun ⟨entry, hentry, heq⟩ => ⟨entry, hmem entry hentry, heq⟩)

namespace HubWorld

theorem Serves.mono (h : w.Serves none) (pending : Option ℕ) : w.Serves pending :=
  fun raw hraw seq hmem => Or.inl ((h raw hraw seq hmem).resolve_right nofun)

theorem Sound.keeps (h : w.Sound options) (hphase : w.phase = .awake o) :
    w.Keeps options.ttl o := by
  have hkeeps := h.phase
  rwa [hphase] at hkeeps

theorem Sound.withObject (h : w.Sound options) (hkeeps : w.Keeps options.ttl o) :
    (w.withObject o).Sound options := { h with phase := { hkeeps with } }

theorem Sound.begin (h : w.Sound options) (hphase : w.phase = .awake o)
    (hidle : o.appending = .idle) (input : LiveBusInput) (chain : List LiveBusInput) :
    (w.withObject { o with
      seq := nextSeq o.seq w.clock,
      chain := chain,
      appending := .storing ⟨nextSeq o.seq w.clock, input⟩ w.clock }).Sound options := by
  have hkeeps := h.keeps hphase
  have hstands := hkeeps.stands
  rw [hidle] at hstands
  obtain ⟨hseq, happlied, hserves⟩ := hstands
  have hlt : o.seq < nextSeq o.seq w.clock := Nat.lt_of_succ_le (le_max_left _ _)
  have hclock : (w.clock * 1000).toNat ≤ nextSeq o.seq w.clock := le_max_right _ _
  obtain ⟨httl, head, past, raised, hfaithful, hpast, hshown⟩ := hkeeps.recalls
  refine h.withObject { hkeeps with recalls := ?_, stands := ?_ }
  · exact ⟨httl, head, past, raised, hfaithful,
      fun b hb => ⟨(hpast b hb).1.trans hlt.le, (hpast b hb).2⟩, hshown⟩
  · exact ⟨hseq, happlied.trans_lt hlt, rfl, hserves, le_rfl,
      (Int.self_le_toNat _).trans (Int.ofNat_le.mpr hclock),
      fun entry hentry => (h.ordered.past entry hentry).1⟩

theorem Sound.stored (h : w.Sound options) (hphase : w.phase = .awake o)
    (hstoring : o.appending = .storing event now) :
    Sound { w with
      storage := w.storage.putEvent event now,
      phase := .awake { o with appending := .applying event now },
      log := w.log ++ [event.seq] } options := by
  have hkeeps := h.keeps hphase
  have hstands := hkeeps.stands
  rw [hstoring] at hstands
  obtain ⟨hseq, happlied, hevent, hserves, hclock, htime, hlast⟩ := hstands
  have hbelow (entry : StoredRevocation) (hentry : entry ∈ w.storage.revoked) :
      entry.seq < event.seq := (h.ordered.seq entry hentry _ hseq).trans_lt happlied
  have hmem : ∀ entry ∈ w.storage.revoked, entry ∈ (w.storage.putEvent event now).revoked :=
    fun _ hentry => List.mem_append_left _ hentry
  have hnew {entry : StoredRevocation}
      (hentry : entry ∈ (w.storage.putEvent event now).revoked) :
      entry ∈ w.storage.revoked ∨ entry.seq = event.seq ∧ entry.atMs = now := by
    rcases List.mem_append.mp hentry with hentry | hentry
    · exact Or.inl hentry
    · obtain ⟨revocation, -, rfl⟩ := Option.map_eq_some_iff.mp (Option.mem_toList.mp hentry)
      exact Or.inr ⟨rfl, rfl⟩
  have hpair (R : StoredRevocation → StoredRevocation → Prop)
      (hold : w.storage.revoked.Pairwise R)
      (hadd : ∀ entry ∈ w.storage.revoked, ∀ revocation, R entry ⟨event.seq, revocation, now⟩) :
      (w.storage.putEvent event now).revoked.Pairwise R := by
    refine List.pairwise_append.mpr ⟨hold, ?_, ?_⟩
    · cases event.input.kept? with
      | none => exact .nil
      | some revocation => exact List.pairwise_singleton _ _
    · intro entry hentry added hadded
      obtain ⟨revocation, -, rfl⟩ := Option.map_eq_some_iff.mp (Option.mem_toList.mp hadded)
      exact hadd entry hentry revocation
  constructor
  · constructor
    · exact hpair _ h.ordered.seqs fun entry hentry _ => hbelow entry hentry
    · exact hpair _ h.ordered.times fun entry hentry _ => hlast entry hentry
    · intro entry hentry top htop
      obtain rfl := Option.some.inj htop
      rcases hnew hentry with hentry | ⟨heq, -⟩
      · exact (hbelow entry hentry).le
      · exact heq.le
    · intro entry hentry
      rcases hnew hentry with hentry | ⟨heq, hat⟩
      · exact h.ordered.past entry hentry
      · exact ⟨hat.trans_le hclock, by rw [hat, heq]; exact htime⟩
  · exact h.handed
  · exact h.returned
  · intro top htop
    obtain rfl := Option.some.inj htop
    exact happlied.le
  · exact nofun
  · refine ⟨⟨hkeeps.remembers.1, fun a ha => (hkeeps.remembers.2 a ha).stored hmem⟩,
      hkeeps.recalls, hkeeps.floor, hkeeps.pruning, rfl, happlied, hevent, ?_, hclock, ?_⟩
    · intro raw hraw logged hlogged
      rw [List.drop_append] at hlogged
      rcases List.mem_append.mp hlogged with hlogged | hlogged
      · exact Or.inl ((hserves raw hraw logged hlogged).resolve_right nofun)
      · have heq := List.mem_singleton.mp (List.mem_of_mem_drop hlogged)
        exact Or.inr (congrArg some heq.symm)
    · intro revocation hrevocation
      refine Or.inr (Or.inl ⟨⟨event.seq, revocation, now⟩, List.mem_append_right _ ?_, rfl⟩)
      exact Option.mem_toList.mpr (Option.map_eq_some_iff.mpr ⟨revocation, hrevocation, rfl⟩)

theorem Sound.apply (h : w.Sound options) (hphase : w.phase = .awake o) {atMs : ℤ}
    (happlying : o.appending = .applying event atMs) (derived : Bool) :
    Sound { w with
      phase := .awake (o.applyEvent options event w.clock derived),
      applied := w.applied ++ [event.seq],
      shown := w.shown ++ (event.input.revocation?.map fun revocation =>
        ⟨revocation, event.seq, atMs⟩).toList,
      floors := w.floors ++ [(o.applyEvent options event w.clock derived).revocations.floor] }
      options := by
  have hkeeps := h.keeps hphase
  have hstands := hkeeps.stands
  rw [happlying] at hstands
  obtain ⟨hseq, happlied, hevent, hserves, hclock, hkept⟩ := hstands
  obtain ⟨httl, head, past, raised, hfaithful, hpast, hshown⟩ := hkeeps.recalls
  have hbefore : ∀ b ∈ past, b.seq ≤ event.seq := fun b hb => (hpast b hb).1.trans_eq hevent.symm
  have hnow : ∀ b ∈ past, b.now ≤ w.clock := fun b hb => (hpast b hb).2
  have hnew {a : Applied} (ha : a ∈ w.shown ++ (event.input.revocation?.map fun revocation =>
      (⟨revocation, event.seq, atMs⟩ : Applied)).toList) : a ∈ w.shown ∨
        event.input.revocation? = some a.event ∧ a.seq = event.seq ∧ a.now = atMs := by
    rcases List.mem_append.mp ha with ha | ha
    · exact Or.inl ha
    · obtain ⟨revocation, hrevocation, rfl⟩ := Option.map_eq_some_iff.mp (Option.mem_toList.mp ha)
      exact Or.inr ⟨hrevocation, rfl, rfl⟩
  obtain ⟨hrises, httl', hwhole, past', raised', hfaithful', hpast', hmono, hheld⟩ :=
    hfaithful.applyEvent httl hbefore hnow derived
  refine { h with
    empty := fun hnone => absurd (hseq.symm.trans hnone) nofun
    phase := ⟨⟨?_, ?_⟩, ⟨httl', head, past', raised', hfaithful', ?_, ?_⟩,
      hkeeps.floor.trans hrises, hkeeps.pruning, hseq, happlied, hevent, ?_⟩ }
  · intro f hf
    rcases List.mem_append.mp hf with hf | hf
    · exact (hkeeps.remembers.1 f hf).trans hrises
    · exact (List.mem_singleton.mp hf).le
  · intro a ha
    rcases hnew ha with ha | ⟨hrevocation, haseq, hat⟩
    · exact (hkeeps.remembers.2 a ha).mono hrises
    · rcases kept?_or_whole hrevocation with hmem | hall
      · obtain ⟨revocation, seq, now⟩ := a
        obtain rfl : seq = event.seq := haseq
        obtain rfl : now = atMs := hat
        exact (hkept revocation hmem).mono hrises
      · exact Or.inl (haseq.trans_le (hwhole _ hrevocation hall))
  · exact fun b hb => ⟨(hpast' b hb).1.trans hevent.le, (hpast' b hb).2⟩
  · intro a ha
    rcases hnew ha with ha | ⟨hrevocation, haseq, hat⟩
    · rcases hshown a ha with hle | ⟨b, hb, hsame⟩ | hold
      · exact Or.inl (hle.trans hrises)
      · exact Or.inr (Or.inl ⟨b, hmono b hb, hsame⟩)
      · exact Or.inr (Or.inr hold)
    · rcases hheld _ hrevocation with hle | hmem
      · exact Or.inl (haseq.trans_le hle)
      · exact Or.inr (Or.inl ⟨_, hmem, rfl, haseq.symm, hat.trans_le hclock⟩)
  · intro raw hraw logged hlogged
    rcases hserves raw hraw logged hlogged with hmem | hpending
    · exact Or.inl (List.mem_append_left _ hmem)
    · rw [← Option.some.inj hpending]
      exact Or.inl (List.mem_append_right _ (List.mem_singleton_self _))

theorem Sound.settle (h : w.Sound options) (hphase : w.phase = .awake o)
    (hsettling : o.appending = .settling event) :
    (w.withObject (o.settle event)).Sound options := by
  have hkeeps := h.keeps hphase
  have hstands := hkeeps.stands
  rw [hsettling] at hstands
  have hfloor : o.floor ≤ (o.settle event).floor ∧
      (o.settle event).floor ≤ o.revocations.floor := by
    unfold HubObject.settle
    dsimp only
    split
    · next hlt => exact ⟨hlt.le, le_rfl⟩
    · exact ⟨le_rfl, hkeeps.floor⟩
  refine h.withObject { hkeeps with floor := hfloor.2, pruning := ?_, stands := hstands }
  intro limit hlimit
  exact (hkeeps.pruning limit hlimit).trans (max_le_max hfloor.1 le_rfl)

theorem Sound.saved (h : w.Sound options) (hphase : w.phase = .awake o)
    (hsaving : o.appending = .saving seq floor) :
    Sound { w with
      storage := w.storage.putApplied seq floor,
      phase := .awake { o with appending := .idle },
      handed := w.handed ++ [seq] } options := by
  have hkeeps := h.keeps hphase
  have hstands := hkeeps.stands
  rw [hsaving] at hstands
  obtain ⟨hseq, happlied, hlast, hserves⟩ := hstands
  constructor
  · exact ⟨h.ordered.seqs, h.ordered.times, h.ordered.seq, h.ordered.past⟩
  · refine List.pairwise_append.mpr ⟨h.handed, List.pairwise_singleton _ _, ?_⟩
    intro earlier hearlier later hlater
    rw [List.mem_singleton.mp hlater]
    exact (h.returned earlier hearlier).trans_lt happlied
  · intro returned hreturned
    rcases List.mem_append.mp hreturned with hreturned | hreturned
    · exact (h.returned returned hreturned).trans happlied.le
    · exact (List.mem_singleton.mp hreturned).le
  · intro top htop
    have heq : some seq = some top := hseq.symm.trans htop
    exact (Option.some.inj heq).le
  · intro hnone
    have heq : some seq = none := hseq.symm.trans hnone
    cases heq
  · exact ⟨hkeeps.remembers, hkeeps.recalls, hkeeps.floor, hkeeps.pruning, hseq, hlast.le, hserves⟩

theorem Sound.alarm (h : w.Sound options) (hphase : w.phase = .awake o) :
    (w.withObject { o with
      pruning := o.pruning ++ [o.pruneEnd options w.clock] }).Sound options := by
  have hkeeps := h.keeps hphase
  refine h.withObject { hkeeps with pruning := ?_ }
  intro limit hlimit
  rcases List.mem_append.mp hlimit with hlimit | hlimit
  · exact hkeeps.pruning limit hlimit
  · exact (List.mem_singleton.mp hlimit).le

theorem Sound.delete (h : w.Sound options) (hphase : w.phase = .awake o) {limit : ℕ}
    (hlimit : limit ∈ o.pruning) :
    Sound { w with storage := w.storage.deleteStale limit } options := by
  have hkeeps := h.keeps hphase
  have hsublist : (w.storage.deleteStale limit).revoked.Sublist w.storage.revoked :=
    List.drop_sublist _ _
  have hgone {entry : StoredRevocation} (hentry : entry ∈ w.storage.revoked) :
      entry ∈ (w.storage.deleteStale limit).revoked ∨ entry.seq < limit := by
    have hprefix : w.storage.stale limit <+: w.storage.revoked :=
      (List.take_prefix _ _).trans (List.takeWhile_prefix _)
    rw [← List.prefix_iff_eq_append.mp hprefix] at hentry
    rcases List.mem_append.mp hentry with hentry | hentry
    · have hstale := List.mem_takeWhile_imp (List.mem_of_mem_take hentry)
      exact Or.inr (of_decide_eq_true hstale)
    · exact Or.inl hentry
  have hrecalled {a : Applied}
      (ha : Recalled options.ttl w.storage w.clock o.revocations.floor a) :
      Recalled options.ttl (w.storage.deleteStale limit) w.clock o.revocations.floor a := by
    rcases ha with hle | ⟨entry, hentry, rfl⟩ | hold
    · exact Or.inl hle
    · rcases hgone hentry with hentry | hlt
      · exact Or.inr (Or.inl ⟨entry, hentry, rfl⟩)
      · rcases lt_max_iff.mp (hlt.trans_le (hkeeps.pruning limit hlimit)) with hlow | hold
        · exact Or.inl (hlow.le.trans hkeeps.floor)
        · have hpast := (h.ordered.past entry hentry).2
          refine Or.inr (Or.inr ?_)
          change entry.atMs < w.clock - options.ttl * 1000 - revocationSkewMs
          omega
    · exact Or.inr (Or.inr hold)
  refine { h with
    ordered := ⟨h.ordered.seqs.sublist hsublist, h.ordered.times.sublist hsublist,
      fun entry hentry => h.ordered.seq entry (hsublist.subset hentry),
      fun entry hentry => h.ordered.past entry (hsublist.subset hentry)⟩
    empty := ?_
    phase := ?_ }
  · intro hnone
    obtain ⟨hrevoked, hrest⟩ := h.empty hnone
    refine ⟨?_, hrest⟩
    rw [hrevoked] at hsublist
    exact List.sublist_nil.mp hsublist
  · change PhaseSound _ options w.phase
    rw [hphase]
    refine { hkeeps with remembers := ⟨hkeeps.remembers.1, ?_⟩, stands := ?_ }
    · exact fun a ha => hrecalled (hkeeps.remembers.2 a ha)
    · have hstands := hkeeps.stands
      cases happending : o.appending with
      | storing event now =>
        rw [happending] at hstands
        obtain ⟨hseq, happlied, hevent, hserves, hclock, htime, hlast⟩ := hstands
        exact ⟨hseq, happlied, hevent, hserves, hclock, htime,
          fun entry hentry => hlast entry (hsublist.subset hentry)⟩
      | applying event now =>
        rw [happending] at hstands
        obtain ⟨hseq, happlied, hevent, hserves, hclock, hkept⟩ := hstands
        exact ⟨hseq, happlied, hevent, hserves, hclock,
          fun revocation hmem => hrecalled (hkept revocation hmem)⟩
      | idle | settling event | saving seq floor =>
        rw [happending] at hstands
        exact hstands

theorem revocations_of_sockets {s t : HubState} {action : HubAction}
    (hsockets : action.ofSockets w.raws) (h : s.step options.hub action = some t) :
    t.core.revocations = s.core.revocations := by
  cases HubState.step_cases h with
  | apply | restore | resync | lose => cases hsockets
  | openSocket | message | install | fail | drop | close | closing | flush => rfl

theorem Sound.hub (h : w.Sound options) (hphase : w.phase = .awake o) {action : HubAction}
    {state : HubState} (hsockets : action.ofSockets w.raws)
    (hstep : o.state.step options.hub action = some state) :
    Sound { w with
      phase := .awake { o with state := state },
      raws := w.rawsAfter action } options := by
  have hkeeps := h.keeps hphase
  have hsame : state.core.revocations = o.revocations := revocations_of_sockets hsockets hstep
  have hserves {pending : Option ℕ} (hserves : w.Serves pending) :
      Serves { w with raws := w.rawsAfter action } pending := by
    intro raw hraw logged hlogged
    have hold : raw ∈ w.raws ∨ raw.opened = w.log.length := by
      unfold rawsAfter at hraw
      split at hraw
      · rcases List.mem_append.mp hraw with hraw | hraw
        · exact Or.inl hraw
        · exact Or.inr (by rw [List.mem_singleton.mp hraw])
      · exact Or.inl (List.mem_of_mem_filter hraw)
      · exact Or.inl hraw
    rcases hold with hraw | hopened
    · exact hserves raw hraw logged hlogged
    · change logged ∈ w.log.drop raw.opened at hlogged
      rw [hopened, List.drop_length] at hlogged
      cases hlogged
  obtain ⟨httl, hrecalls⟩ := hkeeps.recalls
  refine { h with phase := ⟨?_, ?_, ?_, hkeeps.pruning, ?_⟩ }
  · rw [HubObject.revocations, hsame]
    exact hkeeps.remembers
  · rw [Recalls, HubObject.revocations, hsame]
    exact ⟨httl, hrecalls⟩
  · rw [HubObject.revocations, hsame]
    exact hkeeps.floor
  · have hstands := hkeeps.stands
    cases happending : o.appending with
    | idle =>
      rw [happending] at hstands
      exact ⟨hstands.1, hstands.2.1, hserves hstands.2.2⟩
    | storing event now =>
      rw [happending] at hstands
      exact ⟨hstands.1, hstands.2.1, hstands.2.2.1, hserves hstands.2.2.2.1, hstands.2.2.2.2⟩
    | applying event now =>
      rw [happending] at hstands
      refine ⟨hstands.1, hstands.2.1, hstands.2.2.1, hserves hstands.2.2.2.1,
        hstands.2.2.2.2.1, ?_⟩
      rw [HubObject.revocations, hsame]
      exact hstands.2.2.2.2.2
    | settling event =>
      rw [happending] at hstands
      exact ⟨hstands.1, hstands.2.1, hstands.2.2.1, hserves hstands.2.2.2⟩
    | saving seq floor =>
      rw [happending] at hstands
      exact ⟨hstands.1, hstands.2.1, hstands.2.2.1, hserves hstands.2.2.2⟩

theorem Sound.crash (h : w.Sound options)
    (hsaved : ∀ o ∈ w.awake?, o.revocations.floor ≤ w.storage.floor) :
    Sound { w with phase := .asleep } options := by
  refine { h with phase := ?_ }
  have hphase := h.phase
  cases hw : w.phase with
  | asleep =>
    rw [hw] at hphase
    exact hphase
  | starting seq floor lost =>
    rw [hw] at hphase
    exact hphase.2.2.2
  | opening o lost =>
    rw [hw] at hphase
    exact ⟨hphase.2.2.2.1, hphase.2.2.2.2.mono _⟩
  | awake o =>
    rw [hw] at hphase
    have hkeeps : w.Keeps options.ttl o := hphase
    have hfloor := hsaved o (by rw [HubWorld.awake?, hw]; rfl)
    refine ⟨hkeeps.remembers.mono hfloor, ?_⟩
    have hstands := hkeeps.stands
    cases happending : o.appending with
    | applying event now =>
      rw [happending] at hstands
      obtain ⟨hseq, happlied, -, hserves, -⟩ := hstands
      have hunsettled : w.storage.unsettled = some event.seq := by
        rw [HubStorage.unsettled, hseq, if_neg]
        exact fun heq => happlied.ne' (Option.some.inj heq)
      change w.Serves w.storage.unsettled
      rw [hunsettled]
      exact hserves
    | idle =>
      rw [happending] at hstands
      exact hstands.2.2.mono _
    | storing event now =>
      rw [happending] at hstands
      exact hstands.2.2.2.1.mono _
    | settling event =>
      rw [happending] at hstands
      exact hstands.2.2.2.mono _
    | saving seq floor =>
      rw [happending] at hstands
      exact hstands.2.2.2.mono _

end HubWorld

end Appends

namespace HubWorld

variable {options : HubObjectOptions} {w next : HubWorld}

/-- An object that crashes while it is awake has stored the floor of its revocations. -/
def SavedAtCrash (w : HubWorld) : HubObjectAction → Prop
  | .crash => ∀ o ∈ w.awake?, o.revocations.floor ≤ w.storage.floor
  | _ => True

instance (w : HubWorld) : ∀ action, Decidable (w.SavedAtCrash action)
  | .crash => inferInstanceAs (Decidable (∀ o ∈ w.awake?, _))
  | .wake _ | .restore _ | .ready | .append _ | .begin _ | .stored | .apply _ _ | .settle | .saved
  | .alarm _ | .delete _ | .hub _ => inferInstanceAs (Decidable True)

/-- Every revocation and every floor that was applied still refuses, at any later reading of the
clock, the grants that were issued before it and have not expired. -/
structure Unforgotten (w : HubWorld) (ttl : ℕ) (r : Revocations) : Prop where
  grant : ∀ now, w.clock ≤ now → ∀ claims, Unexpired claims ttl now → ∀ a ∈ w.shown,
    InTime claims a → CoversGrant a claims → r.grantRevoked claims = true
  key : ∀ now, w.clock ≤ now → ∀ claims, Unexpired claims ttl now → ∀ a ∈ w.shown,
    InTime claims a → ∀ key, CoversKey a key claims →
      r.keyRevoked key claims = true ∨ r.grantRevoked claims = true
  floor : ∀ f ∈ w.floors, ∀ claims : GrantClaims, claims.s < f → r.grantRevoked claims = true

theorem Recalls.refuses {ttl : ℕ} {o : HubObject} (h : w.Recalls ttl o) {now : ℤ}
    (hclock : w.clock ≤ now) {claims : GrantClaims} (hlives : Unexpired claims ttl now)
    {a : Applied} (ha : a ∈ w.shown) (htime : InTime claims a) (hs : claims.s < a.seq) :
    o.revocations.grantRevoked claims = true ∨ ∃ head past raised b,
      o.revocations.Faithful head past raised now ∧ b ∈ past ∧ b.event = a.event ∧
        b.seq = a.seq ∧ InTime claims b := by
  obtain ⟨-, head, past, raised, hfaithful, -, hshown⟩ := h
  rcases hshown a ha with hle | ⟨b, hb, hevent, hseq, hnow⟩ | hold
  · exact Or.inl (grantRevoked_of_floor (hs.trans_le hle))
  · refine Or.inr ⟨head, past, raised, b, hfaithful.tick hclock, hb, hevent, hseq, ?_⟩
    intro hlt
    have hissued := htime hs
    omega
  · exfalso
    have hissued := htime hs
    obtain ⟨hlife, hexp⟩ := hlives
    have hpast := hold.tick hclock
    unfold Outlived at hpast
    omega

theorem Keeps.unforgotten {ttl : ℕ} {o : HubObject} (h : w.Keeps ttl o) :
    w.Unforgotten ttl o.revocations where
  grant := by
    rintro now hclock claims hlives a ha htime ⟨hs, hkey, hsub⟩
    rcases h.recalls.refuses hclock hlives ha htime hs with
      hrevoked | ⟨head, past, raised, b, hfaithful, hb, hevent, hseq, hin⟩
    · exact hrevoked
    · rw [← hevent] at hkey hsub
      exact hfaithful.grantRevoked hb (hs.trans_eq hseq.symm) hlives h.recalls.1 hin hkey hsub
  key := by
    rintro now hclock claims hlives a ha htime key ⟨hs, hkey, hsub⟩
    rcases h.recalls.refuses hclock hlives ha htime hs with
      hrevoked | ⟨head, past, raised, b, hfaithful, hb, hevent, hseq, hin⟩
    · exact Or.inr hrevoked
    · rw [← hevent] at hkey hsub
      exact hfaithful.keyRevoked hb (hs.trans_eq hseq.symm) hlives h.recalls.1 hin hkey hsub
  floor := fun f hf claims hlt => grantRevoked_of_floor (hlt.trans_le (h.remembers.1 f hf))

theorem Sound.step (h : w.Sound options) {action : HubObjectAction}
    (hcrash : w.SavedAtCrash action) (hstep : w.step options action = some next) :
    next.Sound options := by
  cases action with
  | wake now =>
    simp only [HubWorld.step] at hstep
    split at hstep
    · next hphase =>
      obtain ⟨v, htick, hstep⟩ := Option.bind_eq_some_iff.mp hstep
      obtain ⟨hle, rfl⟩ := of_tick htick
      obtain rfl := Option.some.inj hstep
      exact (h.tick hle).wakeUp hphase
    · cases hstep
  | restore attached =>
    simp only [HubWorld.step] at hstep
    split at hstep
    · next hphase =>
      obtain rfl := Option.some.inj hstep
      exact h.restore hphase
    · cases hstep
  | ready =>
    simp only [HubWorld.step] at hstep
    split at hstep
    · next hphase =>
      obtain rfl := Option.some.inj hstep
      exact h.ready hphase
    · cases hstep
  | append input =>
    obtain ⟨o, ho, hstep⟩ := Option.bind_eq_some_iff.mp hstep
    have hphase := of_awake ho
    split at hstep
    · obtain rfl := Option.some.inj hstep
      exact h.withObject { h.keeps hphase with }
    · cases hstep
  | begin now =>
    obtain ⟨o, ho, hstep⟩ := Option.bind_eq_some_iff.mp hstep
    obtain ⟨v, htick, hstep⟩ := Option.bind_eq_some_iff.mp hstep
    obtain ⟨hle, rfl⟩ := of_tick htick
    have hphase := of_awake ho
    split at hstep
    · next input chain hidle _ =>
      dsimp only at hstep
      split at hstep
      · obtain rfl := Option.some.inj hstep
        exact (h.tick hle).begin hphase hidle input chain
      · cases hstep
    · cases hstep
  | stored =>
    obtain ⟨o, ho, hstep⟩ := Option.bind_eq_some_iff.mp hstep
    have hphase := of_awake ho
    split at hstep
    · next event now hstoring =>
      obtain rfl := Option.some.inj hstep
      exact h.stored hphase hstoring
    · cases hstep
  | apply now derived =>
    obtain ⟨o, ho, hstep⟩ := Option.bind_eq_some_iff.mp hstep
    obtain ⟨v, htick, hstep⟩ := Option.bind_eq_some_iff.mp hstep
    obtain ⟨hle, rfl⟩ := of_tick htick
    have hphase := of_awake ho
    split at hstep
    · next event atMs happlying =>
      obtain rfl := Option.some.inj hstep
      exact (h.tick hle).apply hphase happlying derived
    · cases hstep
  | settle =>
    obtain ⟨o, ho, hstep⟩ := Option.bind_eq_some_iff.mp hstep
    have hphase := of_awake ho
    split at hstep
    · next event hsettling =>
      obtain rfl := Option.some.inj hstep
      exact h.settle hphase hsettling
    · cases hstep
  | saved =>
    obtain ⟨o, ho, hstep⟩ := Option.bind_eq_some_iff.mp hstep
    have hphase := of_awake ho
    split at hstep
    · next seq floor hsaving =>
      obtain rfl := Option.some.inj hstep
      exact h.saved hphase hsaving
    · cases hstep
  | alarm now =>
    obtain ⟨o, ho, hstep⟩ := Option.bind_eq_some_iff.mp hstep
    obtain ⟨v, htick, hstep⟩ := Option.bind_eq_some_iff.mp hstep
    obtain ⟨hle, rfl⟩ := of_tick htick
    obtain rfl := Option.some.inj hstep
    exact (h.tick hle).alarm (of_awake ho)
  | delete n =>
    obtain ⟨o, ho, hstep⟩ := Option.bind_eq_some_iff.mp hstep
    obtain ⟨limit, hlimit, hstep⟩ := Option.bind_eq_some_iff.mp hstep
    have hphase := of_awake ho
    split at hstep
    · obtain rfl := Option.some.inj hstep
      have hkeeps := h.keeps hphase
      exact h.withObject { hkeeps with
        pruning := fun limit hmem => hkeeps.pruning limit (List.mem_of_mem_eraseIdx hmem) }
    · obtain rfl := Option.some.inj hstep
      exact h.delete hphase (List.mem_of_getElem? hlimit)
  | hub action =>
    obtain ⟨o, ho, hstep⟩ := Option.bind_eq_some_iff.mp hstep
    have hphase := of_awake ho
    split at hstep
    · next hsockets =>
      obtain ⟨state, hstate, hstep⟩ := Option.bind_eq_some_iff.mp hstep
      obtain rfl := Option.some.inj hstep
      exact h.hub hphase hsockets hstate
    · cases hstep
  | crash =>
    obtain rfl := Option.some.inj hstep
    exact h.crash hcrash

theorem sound_create : create.Sound options where
  ordered := ⟨.nil, .nil, List.forall_mem_nil _, List.forall_mem_nil _⟩
  handed := .nil
  returned := List.forall_mem_nil _
  applied := nofun
  empty := fun _ => ⟨rfl, rfl, rfl, rfl, rfl⟩
  phase := ⟨⟨List.forall_mem_nil _, List.forall_mem_nil _⟩, List.forall_mem_nil _⟩

/-- Across crashes, seqs grow, what was applied is not forgotten, and a wake keeps the sockets that
missed nothing, as long as every raised floor is stored before a crash. -/
theorem hub_forgets_nothing {actions : List HubObjectAction}
    (hrun : run (step options) create actions = some w)
    (hcrash : Along (step options) SavedAtCrash create actions) :
    w.handed.Pairwise (· < ·) ∧ (∀ o ∈ w.awake?, w.Unforgotten options.ttl o.revocations) ∧
      ∀ o lost, w.phase = .opening o lost →
        ∀ raw ∈ w.raws, ∀ seq ∈ w.log.drop raw.opened, seq ∈ w.applied := by
  have hsound : w.Sound options := run_invariant_along (I := fun w => w.Sound options)
    (fun _ _ _ hs hcrash hstep => hs.step hcrash hstep) hrun hcrash sound_create
  refine ⟨hsound.handed, fun o ho => (hsound.keeps (of_awake ho)).unforgotten, ?_⟩
  intro o lost hphase raw hraw seq hmem
  have hopening := hsound.phase
  rw [hphase] at hopening
  exact (hopening.2.2.2.2 raw hraw seq hmem).resolve_right nofun

/-- `revokeAll` is applied, `after` is done, and the hub crashes and wakes. -/
def revokedThen (after : List HubObjectAction) : List HubObjectAction :=
  [.wake 1000, .restore fun _ => ⟨none, none⟩, .ready, .append (.revoke none none), .begin 1000,
    .stored, .apply 1000 true] ++ after ++ [.crash, .wake 1000, .restore fun _ => ⟨none, none⟩,
    .ready]

def smallHub : HubObjectOptions :=
  ⟨⟨1, fun key _ => key.text, fun _ => 0, 9, 9, none⟩, 9, 9, 1000, 600⟩

theorem hub_forgets_nothing_revokeAll : ∃ w,
    run (step smallHub) create (revokedThen [.settle, .saved]) = some w ∧ w.floors.length = 3 ∧
      w.handed.Pairwise (· < ·) ∧ (∀ o ∈ w.awake?, w.Unforgotten smallHub.ttl o.revocations) ∧
      ∀ o lost, w.phase = .opening o lost →
        ∀ raw ∈ w.raws, ∀ seq ∈ w.log.drop raw.opened, seq ∈ w.applied := by
  have hcrash : Along (step smallHub) SavedAtCrash create (revokedThen [.settle, .saved]) := by
    decide +kernel
  have hfloors : (run (step smallHub) create (revokedThen [.settle, .saved])).map
      (fun w => w.floors.length) = some 3 := by decide +kernel
  obtain ⟨w, hrun, hlength⟩ := Option.map_eq_some_iff.mp hfloors
  exact ⟨w, hrun, hlength, hub_forgets_nothing hrun hcrash⟩

/-- A crash after `revokeAll` was applied and before its floor was stored brings the grants back. -/
theorem revokeAll_forgotten : ¬∀ options actions w, run (step options) create actions = some w →
    ∀ o ∈ w.awake?, w.Unforgotten options.ttl o.revocations := by
  intro h
  have hrevoked := (h smallHub (revokedThen []) _ rfl _ rfl).grant 1000 (by decide)
    ⟨js "s", none, js "/", js "f", ∅, 1000000, 0, 1, 601⟩ ⟨by decide, by decide⟩
    ⟨⟨none, none⟩, 1000001, 1000⟩ (by decide +kernel) (fun _ => by decide)
    ⟨by decide, rfl, Or.inl rfl⟩
  revert hrevoked
  decide +kernel

end HubWorld

end Nifra.Live
