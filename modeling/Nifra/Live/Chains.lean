import Nifra.Live.Following

/-! # Chains of grants

Processes follow one bus and issue grants from grants. An owner that a grant holds goes back to a
loader that ran after every revocation below the grant's seq, while each load keeps only what was
granted to its own subject and revocations outlive the grants that they refuse.
-/

namespace Nifra.Live

open Revocations

/-- The check of a load: the seq that it read, and what was applied by then. -/
structure Check where
  seq : ℕ
  floor : ℕ
  applied : List Applied

/-- A loader that ran, with the keys that it declared, in a load with this check. -/
structure LoaderRun where
  owner : JSString
  keys : List LiveKey
  check : Check

/-- A runtime, the seq that its bus was subscribed at, how far the bus has delivered to it, and what
it applied. `reads` and `checked` are the checks of the runtime's `reading` and `loads`. -/
structure Process where
  runtime : Runtime
  subscribed : Option ℕ
  fetched : ℕ
  applied : List Applied
  reads : List Check
  checked : List Check

/-- `head` is the last seq that the bus gave. -/
structure Cluster where
  log : List LiveBusEvent
  head : ℕ
  processes : List Process
  ran : List LoaderRun

namespace Process
variable (options : RuntimeOptions) (p : Process)

def create : Process := ⟨.create, none, 0, [], [], []⟩

def check : Check :=
  ⟨p.runtime.seen, (p.runtime.core.map fun s => s.core.revocations.floor).getD 0, p.applied⟩

def loaders : RuntimeAction → List LoaderRun
  | .finish n run => (p.checked[n]?).toList.flatMap fun check =>
    run.fresh.map fun entry => ⟨entry.1, entry.2, check⟩
  | _ => []

def appliedBy (t : Runtime) : RuntimeAction → List Applied
  | .start _ now | .deliver _ now | .resume _ now => p.runtime.applications t now
  | _ => []

def step (action : RuntimeAction) : Option Process := do
  let t ← p.runtime.step options action
  some { p with
    runtime := t,
    fetched := match action with
      | .deliver item _ => item.reach p.fetched
      | _ => p.fetched,
    applied := p.applied ++ p.appliedBy t action,
    reads := match action with
      | .read _ => p.reads ++ [p.check]
      | .prepare n => p.reads.eraseIdx n
      | _ => p.reads,
    checked := match action with
      | .prepare n => p.checked ++ (p.reads[n]?).toList
      | .seed _ => p.checked ++ [p.check]
      | .finish n _ => p.checked.eraseIdx n
      | _ => p.checked }

end Process

inductive ClusterAction
  | append (event : LiveBusEvent)
  | spawn
  | subscribe (n head : ℕ)
  | act (n : ℕ) (action : RuntimeAction)

namespace Cluster
variable (options : RuntimeOptions) (c : Cluster)

def create : Cluster := ⟨[], 0, [], []⟩

def issued : List GrantClaims := c.processes.flatMap fun p => p.runtime.issued

def step : ClusterAction → Option Cluster
  | .append event => some { c with
      log := c.log ++ [event],
      head := event.seq }
  | .spawn => some { c with processes := c.processes ++ [.create] }
  | .subscribe n head => do
    let p ← c.processes[n]?
    some { c with processes := c.processes.set n { p with
      subscribed := some head,
      fetched := head } }
  | .act n action => do
    let p ← c.processes[n]?
    let q ← p.step options action
    some { c with
      processes := c.processes.set n q,
      ran := c.ran ++ p.loaders action }

/-- What the bus and the clients can do to a process: events arrive in the order of the log after the
subscription, and a token opens to claims that were issued and are valid. -/
def Reaches (p : Process) : RuntimeAction → Prop
  | .start head _ => p.subscribed = some head
  | .deliver item _ => p.subscribed.isSome ∧ Delivers c.log c.head p.fetched item
  | .read request => ∀ claims ∈ request.opened,
    claims ∈ c.issued ∧ claims.validAt options.ttl request.now
  | _ => True

def Allows : ClusterAction → Prop
  | .append event => c.head < event.seq ∧ isSafeInteger event.seq
  | .spawn => True
  | .subscribe n head => head ≤ c.head ∧
    ∀ p ∈ c.processes[n]?, p.subscribed = none ∧ p.runtime.core = none
  | .act n action => ∀ p ∈ c.processes[n]?, c.Reaches options p action

end Cluster

/-- A revocation of one of the keys, or of every key, for the subject, or for everyone. -/
def Touches (event : LiveRevocation) (keys : List LiveKey) (sub : Option JSString) : Prop :=
  (∀ key ∈ event.key, key ∈ keys) ∧ (event.sub = none ∨ event.sub = sub)

def Check.Knows (check : Check) (event : LiveBusEvent) : Prop :=
  event.seq ≤ check.seq ∧ Known check.floor check.applied event

/-- For each owner, a loader ran and declared its keys, in a load whose check came after every
revocation of the owner that is not after the grant. -/
def Cluster.Vouched (c : Cluster) (claims : GrantClaims) : Prop :=
  ∀ id owner, claims.owners.get id = some owner →
    ∃ run ∈ c.ran, run.owner = id ∧ run.keys = owner.k ∧ owner.w ≤ run.check.seq ∧
      ∀ event ∈ c.log, event.seq ≤ claims.s → ∀ revocation ∈ event.input.revocation?,
        Touches revocation owner.k claims.sub → run.check.Knows event

/-- A revocation that was applied after the grant was issued outlives it: no clock that sealed it was
further ahead than the skew, and no revocation was applied once it had expired. -/
def Persists (applied : List Applied) (claims : GrantClaims) : Prop :=
  ∀ owner ∈ claims.owners.values, ∀ a ∈ applied, Touches a.event owner.k claims.sub →
    claims.s < a.seq →
      claims.iat * 1000 ≤ a.now + revocationSkewMs ∧ ∀ b ∈ applied, b.now / 1000 < claims.exp

/-- The clock does not go back, revocations outlive the grants that are presented, and no hole is
kept for another subject than the grant's. -/
def Process.Meets (p : Process) : RuntimeAction → Prop
  | .start _ now | .deliver _ now | .resume _ now => ∀ a ∈ p.applied, a.now ≤ now
  | .prepare n => ∀ r ∈ p.runtime.reading[n]?, ∀ claims ∈ r.request.presented,
    Persists p.applied claims
  | .finish n run => ∀ load ∈ p.runtime.loads[n]?,
    load.bind run ∨ ∀ hole ∈ load.retention.holes, hole ∉ run.declared
  | _ => True

def Cluster.Meets (c : Cluster) : ClusterAction → Prop
  | .act n action => ∀ p ∈ c.processes[n]?, p.Meets action
  | _ => True

section Retention
variable {revocations : Revocations} {authorized down : Bool} {request : LoadRequest} {seq : ℕ}
  {claims : GrantClaims} {route : LiveRouteMatch} {retention : Retention} {owner routeId : JSString}
  {hole : JSString} {run : LoadRun}

theorem eq_holeOwner (h : holeOf owner routeId = some hole) : owner = holeOwner hole routeId := by
  unfold holeOf at h
  simp only at h
  split_ifs at h with hfixes hbad
  obtain rfl := Option.some.inj h
  rw [Bool.and_eq_true, List.isPrefixOf_iff_prefix, List.isSuffixOf_iff_suffix] at hfixes
  obtain ⟨⟨rest, rfl⟩, front, hfront⟩ := hfixes
  rw [Bool.or_eq_true, Bool.or_eq_true, not_or, not_or, List.isEmpty_iff] at hbad
  have htake : (js "B:" ++ rest).take ((js "B:" ++ rest).length - (js ":" ++ routeId).length) =
      front := by
    rw [← hfront, List.length_append, Nat.add_sub_cancel, List.take_left]
  rw [htake] at hbad ⊢
  rcases List.append_eq_append_iff.mp hfront with ⟨back, hB, -⟩ | ⟨hole, rfl, hrest⟩
  · have hlength : front.length ≤ 2 := by
      have hlen := congrArg List.length hB
      rw [List.length_append] at hlen
      have htwo : (js "B:").length = 2 := by decide
      omega
    exact absurd (List.drop_eq_nil_of_le hlength) hbad.1.1
  · have hdrop : (js "B:" ++ hole).drop 2 = hole := rfl
    rw [hdrop, holeOwner, hrest, ← List.append_assoc, ← List.append_assoc]

def Clear (revocations : Revocations) (claims : GrantClaims) (owner : JSString) : Prop :=
  ∀ held, claims.owners.get owner = some held →
    ∀ key ∈ held.k, revocations.keyRevoked key claims = false

structure Retention.AllClear (revocations : Revocations) (claims : GrantClaims)
    (route : LiveRouteMatch) (retention : Retention) : Prop where
  layouts : ∀ index ∈ retention.layouts, ∀ layoutId, route.layoutIds[index]? = some layoutId →
    Clear revocations claims (layoutOwner layoutId)
  page : retention.page → Clear revocations claims (pageOwner route.routeId)
  holes : ∀ hole ∈ retention.holes, Clear revocations claims (holeOwner hole route.routeId)

theorem allClear_retainOwner (h : retention.AllClear revocations claims route) :
    (retainOwner revocations request claims route retention owner).AllClear revocations claims
      route := by
  unfold retainOwner
  split
  · exact h
  · next held hheld =>
    split_ifs with hrevoked hlayout hpage hpath
    · exact h
    all_goals
      have hclear : Clear revocations claims owner := by
        intro held' hheld' key hkey
        rw [hheld] at hheld'
        obtain rfl := Option.some.inj hheld'
        simpa using fun hr => hrevoked (List.any_eq_true.mpr ⟨key, hkey, hr⟩)
    · split
      · exact h
      · next index hindex =>
        split_ifs
        · exact h
        · refine ⟨fun index' hindex' layoutId hlayoutId => ?_, h.page, h.holes⟩
          rcases List.mem_append.mp hindex' with hindex' | hindex'
          · exact h.layouts index' hindex' layoutId hlayoutId
          · obtain rfl := List.mem_singleton.mp hindex'
            obtain ⟨hlt, hid, -⟩ := List.idxOf?_eq_some_iff.mp hindex
            rw [List.getElem?_eq_getElem hlt, hid] at hlayoutId
            obtain ⟨rest, rfl⟩ := List.isPrefixOf_iff_prefix.mp hlayout
            obtain rfl := Option.some.inj hlayoutId
            exact hclear
    · exact ⟨h.layouts, fun _ => hpage.1 ▸ hclear, h.holes⟩
    · split
      · exact h
      · next hole hhole =>
        split_ifs
        · exact h
        · refine ⟨h.layouts, h.page, fun hole' hhole' => ?_⟩
          rcases List.mem_append.mp hhole' with hhole' | hhole'
          · exact h.holes hole' hhole'
          · obtain rfl := List.mem_singleton.mp hhole'
            exact eq_holeOwner hhole ▸ hclear
    · exact h

theorem allClear_foldl (owners : List JSString)
    (h : retention.AllClear revocations claims route) :
    (owners.foldl (retainOwner revocations request claims route) retention).AllClear revocations
      claims route := by
  induction owners generalizing retention with
  | nil => exact h
  | cons owner owners ih => exact ih (allClear_retainOwner h)

theorem clear_of_mem_retained {load : LoadState} (hroute : load.route = some route)
    (hclear : load.retention.AllClear revocations claims route) (h : owner ∈ load.retained run) :
    Clear revocations claims owner := by
  unfold LoadState.retained at h
  rw [hroute] at h
  simp only [List.mem_append] at h
  rcases h with (hlayout | hpage) | hhole
  · split_ifs at hlayout with hkeeps
    · obtain ⟨⟨layoutId, index⟩, hmem, rfl⟩ := List.mem_map.mp hlayout
      obtain ⟨hzip, hkeep⟩ := List.mem_filter.mp hmem
      rw [Bool.and_eq_true, decide_eq_true_eq] at hkeep
      exact hclear.layouts index hkeep.1 layoutId (List.mem_zipIdx_iff_getElem?.mp hzip)
    · cases hlayout
  · split_ifs at hpage with hkeeps
    · rw [List.mem_singleton.mp hpage]
      exact hclear.page (Bool.and_eq_true _ _ ▸ hkeeps).2
    · cases hpage
  · obtain ⟨hole, hmem, rfl⟩ := List.mem_map.mp hhole
    exact hclear.holes hole (List.mem_filter.mp hmem).1

theorem retained_of_empty {load : LoadState} (h : load.retention = ⟨[], [], false⟩) :
    load.retained run = [] := by
  unfold LoadState.retained
  rw [h]
  split
  · rfl
  · simp

theorem clear_of_retained
    (h : owner ∈ (prepareLoad revocations authorized request down seq).retained run) :
    ∃ claims ∈ request.presented, revocations.grantRevoked claims = false ∧
      (prepareLoad revocations authorized request down seq).grant = some claims ∧
      Clear revocations claims owner := by
  generalize hload : prepareLoad revocations authorized request down seq = load at h ⊢
  have hsome : load.retention ≠ ⟨[], [], false⟩ := by
    intro hempty
    rw [retained_of_empty hempty] at h
    cases h
  cases hgrant : load.grant with
  | none =>
    refine absurd ?_ hsome
    rw [← hload] at hgrant ⊢
    simp only [prepareLoad] at hgrant ⊢
    rw [hgrant]
  | some claims =>
    cases hroute : load.route with
    | none =>
      refine absurd ?_ hsome
      rw [← hload] at hroute ⊢
      simp only [prepareLoad] at hroute ⊢
      rw [hroute]
      split
      · next hnone => cases hnone
      · rfl
    | some route =>
      have hfind : request.presented.find? (fun claims => !revocations.grantRevoked claims) =
          some claims := by
        rw [← hload] at hgrant
        simp only [prepareLoad] at hgrant
        split_ifs at hgrant
        exact hgrant
      have hclear : load.retention.AllClear revocations claims route := by
        rw [← hload] at hgrant hroute ⊢
        simp only [prepareLoad] at hgrant hroute ⊢
        rw [hgrant, hroute]
        exact allClear_foldl _ ⟨nofun, nofun, nofun⟩
      refine ⟨claims, List.mem_of_find?_eq_some hfind, ?_, rfl,
        clear_of_mem_retained hroute hclear h⟩
      simpa using List.find?_some hfind

end Retention

section Issued
variable {load : LoadState} {run : LoadRun} {owner id : JSString} {held : GrantOwner}
  {owners : InsertionMap JSString GrantOwner}

theorem of_get_carried {retained : List JSString} (h : load.carried retained = some owners)
    (hget : owners.get id = some held) :
    id ∈ retained ∧ ∃ claims ∈ load.grant, claims.owners.get id = some held := by
  have hfold (acc : InsertionMap JSString GrantOwner)
      (hacc : retained.foldlM (fun owners owner => do
        let held ← load.grant.bind fun claims => claims.owners.get owner
        some (owners.set owner held)) acc = some owners) :
      acc.get id = some held ∨
        id ∈ retained ∧ ∃ claims ∈ load.grant, claims.owners.get id = some held := by
    clear h
    induction retained generalizing acc with
    | nil =>
      obtain rfl := Option.some.inj hacc
      exact Or.inl hget
    | cons owner retained ih =>
      simp only [List.foldlM_cons, Option.bind_eq_bind, Option.bind_eq_some_iff] at hacc
      obtain ⟨next, ⟨held', ⟨claims, hclaims, hheld'⟩, hnext⟩, hrest⟩ := hacc
      obtain rfl := Option.some.inj hnext
      rcases ih _ hrest with hset | ⟨hmem, hclaims'⟩
      · rw [InsertionMap.get_set] at hset
        split_ifs at hset with hid
        · obtain rfl := Option.some.inj hset
          exact Or.inr ⟨hid ▸ List.mem_cons_self, claims, hclaims, hid ▸ hheld'⟩
        · exact Or.inl hset
      · exact Or.inr ⟨List.mem_cons_of_mem _ hmem, hclaims'⟩
  rcases hfold ∅ h with hempty | hcarried
  · cases hempty
  · exact hcarried

theorem of_get_withFresh (h : (load.withFresh run owners).get id = some held) :
    owners.get id = some held ∨ (∃ entry ∈ run.fresh, entry.1 = id ∧ held = ⟨entry.2, load.seq⟩) := by
  rcases InsertionMap.of_get_foldl_set h with hold | ⟨entry, hentry, hid, hheld⟩
  · exact Or.inl hold
  · exact Or.inr ⟨entry, hentry, hid, hheld.symm⟩

theorem of_get_finish {ttl : ℤ} {down : Bool} {claims : GrantClaims}
    (h : load.finish run ttl down = some claims) :
    claims.s = load.seq ∧ claims.sub = run.subject ∧
      ∀ id held, claims.owners.get id = some held →
        (∃ entry ∈ run.fresh, entry.1 = id ∧ held = ⟨entry.2, load.seq⟩) ∨
          id ∈ load.retained run ∧ ∃ before ∈ load.grant, before.owners.get id = some held := by
  unfold LoadState.finish at h
  simp only [Option.bind_eq_bind] at h
  split at h
  · cases h
  obtain ⟨owners, hcarried, h⟩ := Option.bind_eq_some_iff.mp h
  split_ifs at h
  obtain rfl := Option.some.inj h
  refine ⟨rfl, rfl, fun id held hget => ?_⟩
  rcases of_get_withFresh hget with hold | hfresh
  · exact Or.inr (of_get_carried hcarried hold)
  · exact Or.inl hfresh

theorem bind_of_retained (h : load.bind run ∨ ∀ hole ∈ load.retention.holes, hole ∉ run.declared)
    (hmem : id ∈ load.retained run) : load.bind run := by
  rcases h with hbind | hholes
  · exact hbind
  · by_contra hbind
    unfold LoadState.retained at hmem
    have hfilter : (load.retention.holes.filter fun hole => hole ∈ run.declared) = [] := by
      rw [List.filter_eq_nil_iff]
      exact fun hole hhole => by simpa using hholes hole hhole
    split at hmem
    · cases hmem
    · simp [hbind, hfilter] at hmem

end Issued

structure Cluster.Grows (c d : Cluster) : Prop where
  head : c.head ≤ d.head
  log : ∀ event ∈ d.log, event ∈ c.log ∨ c.head < event.seq
  ran : c.ran ⊆ d.ran

def Check.Sound (log : List LiveBusEvent) (head : ℕ) (check : Check) : Prop :=
  check.seq ≤ head ∧ ∀ event ∈ log, event.seq ≤ check.seq → Known check.floor check.applied event

structure Cluster.Backed (c : Cluster) (claims : GrantClaims) : Prop where
  s_le : claims.s ≤ c.head
  vouched : c.Vouched claims

/-- What a load keeps was not revoked between its grant and its check. -/
def Cluster.Keeps (c : Cluster) (load : LoadState) : Prop :=
  ∀ claims ∈ load.grant, c.Backed claims ∧
    ∀ run, ∀ id ∈ load.retained run, ∀ held, claims.owners.get id = some held →
      ∀ event ∈ c.log, event.seq ≤ load.seq → ∀ revocation ∈ event.input.revocation?,
        Touches revocation held.k claims.sub → event.seq ≤ claims.s

structure Process.Tracking (options : RuntimeOptions) (log : List LiveBusEvent) (head : ℕ)
    (p : Process) : Prop where
  started : p.runtime.core.isSome → p.runtime.Tracks log head options.ttl p.fetched p.applied
  waiting : p.runtime.core = none → p.runtime.drain = .idle ∧ p.runtime.seen = 0 ∧
    p.applied = [] ∧ (p.subscribed = none → p.runtime.queue = []) ∧ ∀ low ∈ p.subscribed,
      Follows log head options.ttl p.fetched []
        ⟨low, .idle, p.runtime.queue, .create low (options.ttl * 1000) options.limit⟩

structure Process.Sound (options : RuntimeOptions) (c : Cluster) (p : Process) : Prop where
  tracking : p.Tracking options c.log c.head
  reads : List.Forall₂ (fun r check => check.seq = r.seq ∧ check.Sound c.log c.head ∧
    check.seq ≤ p.runtime.seen ∧ ∀ claims ∈ r.request.opened,
      c.Backed claims ∧ claims.exp - claims.iat ≤ options.ttl) p.runtime.reading p.reads
  loads : List.Forall₂ (fun load check => check.seq = load.seq ∧ check.Sound c.log c.head ∧
    c.Keeps load) p.runtime.loads p.checked
  issued : ∀ claims ∈ p.runtime.issued, c.Backed claims

structure Cluster.Sound (options : RuntimeOptions) (c : Cluster) : Prop where
  ordered : Ordered c.log c.head
  processes : ∀ p ∈ c.processes, p.Sound options c

section Sound
variable {options : RuntimeOptions} {c d : Cluster} {p q : Process} {claims : GrantClaims}
  {check : Check} {load : LoadState} {log : List LiveBusEvent} {head : ℕ} {t : Runtime}
  {action : RuntimeAction}

theorem forall₂_eraseIdx {α β : Type*} {R : α → β → Prop} {l : List α} {l' : List β} (n : ℕ)
    (h : List.Forall₂ R l l') : List.Forall₂ R (l.eraseIdx n) (l'.eraseIdx n) := by
  rw [List.eraseIdx_eq_take_drop_succ, List.eraseIdx_eq_take_drop_succ]
  exact List.rel_append (List.forall₂_take n h) (List.forall₂_drop (n + 1) h)

theorem exists_of_forall₂ {α β : Type*} {R : α → β → Prop} {l : List α} {l' : List β} {n : ℕ}
    {a : α} (h : List.Forall₂ R l l') (ha : l[n]? = some a) : ∃ b, l'[n]? = some b ∧ R a b := by
  obtain ⟨hlt, rfl⟩ := List.getElem?_eq_some_iff.mp ha
  have hlt' : n < l'.length := h.length_eq ▸ hlt
  exact ⟨l'[n], List.getElem?_eq_getElem hlt', h.get hlt hlt'⟩

theorem Cluster.Backed.mono (h : c.Backed claims) (hgrows : c.Grows d) : d.Backed claims := by
  refine ⟨h.s_le.trans hgrows.head, fun id owner hget => ?_⟩
  obtain ⟨run, hrun, hid, hkeys, hw, hknows⟩ := h.vouched id owner hget
  refine ⟨run, hgrows.ran hrun, hid, hkeys, hw, fun event hevent hle => ?_⟩
  rcases hgrows.log event hevent with hold | hnew
  · exact hknows event hold hle
  · exact absurd (hle.trans h.s_le) (Nat.not_le.mpr hnew)

theorem Check.Sound.mono (h : check.Sound c.log c.head) (hgrows : c.Grows d) :
    check.Sound d.log d.head := by
  refine ⟨h.1.trans hgrows.head, fun event hevent hle => ?_⟩
  rcases hgrows.log event hevent with hold | hnew
  · exact h.2 event hold hle
  · exact absurd (hle.trans h.1) (Nat.not_le.mpr hnew)

theorem Cluster.Keeps.mono (h : c.Keeps load) (hseq : load.seq ≤ c.head) (hgrows : c.Grows d) :
    d.Keeps load := by
  intro claims hclaims
  obtain ⟨hbacked, hkeeps⟩ := h claims hclaims
  refine ⟨hbacked.mono hgrows, fun run id hid held hheld event hevent hle => ?_⟩
  rcases hgrows.log event hevent with hold | hnew
  · exact hkeeps run id hid held hheld event hold hle
  · exact absurd (hle.trans hseq) (Nat.not_le.mpr hnew)

theorem Process.Sound.mono (h : p.Sound options c) (hgrows : c.Grows d)
    (htracking : p.Tracking options d.log d.head) : p.Sound options d := by
  constructor
  · exact htracking
  · refine h.reads.imp ?_
    rintro r check ⟨hseq, hsound, hseen, hopened⟩
    exact ⟨hseq, hsound.mono hgrows, hseen, fun claims hclaims =>
      ⟨(hopened claims hclaims).1.mono hgrows, (hopened claims hclaims).2⟩⟩
  · refine h.loads.imp ?_
    rintro load check ⟨hseq, hsound, hkeeps⟩
    exact ⟨hseq, hsound.mono hgrows, hkeeps.mono (hseq ▸ hsound.1) hgrows⟩
  · exact fun claims hclaims => (h.issued claims hclaims).mono hgrows

/-- A step that leaves the drain and the revocations as they are. -/
structure Runtime.Still (r t : Runtime) : Prop where
  seen : t.seen = r.seen
  drain : t.drain = r.drain
  queue : t.queue = r.queue
  core : t.core.map (fun s => s.core.revocations) = r.core.map fun s => s.core.revocations

theorem Process.Tracking.still (h : p.Tracking options log head)
    (hstill : p.runtime.Still q.runtime) (hsubscribed : q.subscribed = p.subscribed)
    (hfetched : q.fetched = p.fetched) (happlied : q.applied = p.applied) :
    q.Tracking options log head := by
  constructor
  · intro hsome
    obtain ⟨s, hs⟩ := Option.isSome_iff_exists.mp hsome
    have hcore := hstill.core
    rw [hs, Option.map_some] at hcore
    obtain ⟨s', hs', hrevocations⟩ := Option.map_eq_some_iff.mp hcore.symm
    obtain ⟨s'', hs'', hfollows⟩ := h.started (by rw [hs']; rfl)
    obtain rfl := Option.some.inj (hs'.symm.trans hs'')
    refine ⟨s, hs, ?_⟩
    rw [hfetched, happlied, Runtime.position, hstill.seen, hstill.drain, hstill.queue,
      ← hrevocations]
    exact hfollows
  · intro hnone
    have hcore := hstill.core
    rw [hnone, Option.map_none] at hcore
    rw [hfetched, happlied, hstill.drain, hstill.seen, hstill.queue, hsubscribed]
    exact h.waiting (Option.map_eq_none_iff.mp hcore.symm)

theorem applications_of_resume {r : Runtime} {ok : Bool} {now : ℤ}
    (h : r.resume options ok now = some t) : r.applications t now = Runtime.appliedIn t.drain now := by
  cases hdrain : r.drain with
  | applied event =>
    unfold Runtime.resume at h
    rw [hdrain] at h
    split at h
    · next hnext => cases hnext
    · next htagging => cases htagging
    · obtain rfl := Option.some.inj h
      rw [Runtime.applications, hdrain]
      rfl
    · next hfailing => cases hfailing
    · cases h
  | idle => rw [Runtime.applications, hdrain]
  | next => rw [Runtime.applications, hdrain]
  | tagging event => rw [Runtime.applications, hdrain]
  | failing event => rw [Runtime.applications, hdrain]

theorem startDrain_of_none {r : Runtime} {now : ℤ} (h : r.core = none) :
    r.startDrain options now = r := by
  rw [Runtime.startDrain, h]

theorem Process.Tracking.of_tracks
    (h : q.runtime.Tracks log head options.ttl q.fetched q.applied) :
    q.Tracking options log head := by
  refine ⟨fun _ => h, fun hnone => ?_⟩
  obtain ⟨s, hs, -⟩ := h
  rw [hnone] at hs
  cases hs

theorem tracking_start (hlog : Ordered c.log c.head) (h : p.Tracking options c.log c.head)
    {low : ℕ} {now : ℤ} (hlow : p.subscribed = some low)
    (hstep : p.step options (.start low now) = some q) : q.Tracking options c.log c.head := by
  simp only [Process.step, Runtime.step, Option.bind_eq_bind, Option.bind_eq_some_iff] at hstep
  obtain ⟨t, ht, hq⟩ := hstep
  split_ifs at ht with hnone
  obtain rfl := Option.some.inj ht
  obtain rfl := Option.some.inj hq
  obtain ⟨hidle, -, hnil, -, hwaiting⟩ := h.waiting (Option.isNone_iff_eq_none.mp hnone)
  have hstarted : (p.runtime.started options low).Tracks c.log c.head options.ttl p.fetched [] := by
    refine ⟨_, rfl, ?_⟩
    rw [Runtime.position]
    simp only [Runtime.started]
    rw [hidle]
    exact hwaiting low hlow
  have hdriven : ((p.runtime.started options low).startDrain options now).Tracks c.log c.head
      options.ttl p.fetched (p.applied ++ p.runtime.applications
        ((p.runtime.started options low).startDrain options now) now) := by
    rw [hnil]
    exact Runtime.tracks_startDrain hlog hstarted (fun a ha => absurd ha List.not_mem_nil)
  exact .of_tracks hdriven

theorem tracking_deliver (hlog : Ordered c.log c.head) (h : p.Tracking options c.log c.head)
    {item : Queued} {now : ℤ} (hsubscribed : p.subscribed.isSome)
    (hitem : Delivers c.log c.head p.fetched item) (hnow : ∀ a ∈ p.applied, a.now ≤ now)
    (hstep : p.step options (.deliver item now) = some q) :
    q.Tracking options c.log c.head := by
  obtain rfl := Option.some.inj hstep
  cases hcore : p.runtime.core with
  | none =>
    obtain ⟨hidle, hseen, hnil, -, hwaiting⟩ := h.waiting hcore
    have hwait : p.runtime.enqueue options item now =
        { p.runtime with queue := p.runtime.queue ++ [item] } := startDrain_of_none hcore
    have happlied : p.applied ++ p.appliedBy (p.runtime.enqueue options item now)
        (.deliver item now) = [] := by
      simp [hnil, hwait, hidle, Process.appliedBy, Runtime.applications, Runtime.appliedIn]
    constructor
    · intro hsome
      simp only [hwait, hcore] at hsome
      cases hsome
    · intro _
      simp only [hwait]
      refine ⟨hidle, hseen, hwait ▸ happlied, fun hnone => ?_, fun low hlow => ?_⟩
      · rw [hnone] at hsubscribed
        cases hsubscribed
      · exact (hwaiting low hlow).enqueue hlog hitem
  | some s =>
    obtain ⟨s', hs', hfollows⟩ := h.started (by rw [hcore]; rfl)
    have hqueued : Runtime.Tracks c.log c.head options.ttl (item.reach p.fetched) p.applied
        { p.runtime with queue := p.runtime.queue ++ [item] } :=
      ⟨s', hs', hfollows.enqueue hlog hitem⟩
    exact .of_tracks (Runtime.tracks_startDrain hlog hqueued hnow)

theorem tracking_resume (hlog : Ordered c.log c.head) (h : p.Tracking options c.log c.head)
    {ok : Bool} {now : ℤ} (hnow : ∀ a ∈ p.applied, a.now ≤ now)
    (hstep : p.step options (.resume ok now) = some q) : q.Tracking options c.log c.head := by
  simp only [Process.step, Runtime.step, Option.bind_eq_bind, Option.bind_eq_some_iff] at hstep
  obtain ⟨t, ht, hq⟩ := hstep
  obtain rfl := Option.some.inj hq
  have hsome : p.runtime.core.isSome := by
    by_contra hnone
    rw [Bool.not_eq_true, Option.isSome_eq_false_iff, Option.isNone_iff_eq_none] at hnone
    rw [Runtime.resume, hnone] at ht
    cases ht
  refine .of_tracks ?_
  have hdriven := Runtime.tracks_resume hlog (h.started hsome) hnow ht
  rw [← applications_of_resume ht] at hdriven
  exact hdriven

theorem tracking_step (hlog : Ordered c.log c.head) (h : p.Tracking options c.log c.head)
    (hreaches : c.Reaches options p action) (hmeets : p.Meets action)
    (hstep : p.step options action = some q) : q.Tracking options c.log c.head := by
  have hstill (hstill : p.runtime.Still q.runtime) (hsubscribed : q.subscribed = p.subscribed)
      (hfetched : q.fetched = p.fetched) (happlied : q.applied = p.applied ++ []) :
      q.Tracking options c.log c.head :=
    h.still hstill hsubscribed hfetched (happlied.trans (List.append_nil _))
  cases action with
  | start low now => exact tracking_start hlog h hreaches hstep
  | deliver item now => exact tracking_deliver hlog h hreaches.1 hreaches.2 hmeets hstep
  | resume ok now => exact tracking_resume hlog h hmeets hstep
  | socket action =>
    simp only [Process.step, Runtime.step, Option.bind_eq_bind, Option.bind_eq_some_iff] at hstep
    obtain ⟨t, ⟨s, hs, ht⟩, hq⟩ := hstep
    split_ifs at ht with hsocket
    obtain ⟨s', hs', rfl⟩ := Option.map_eq_some_iff.mp ht
    obtain rfl := Option.some.inj hq
    refine hstill ⟨rfl, rfl, rfl, ?_⟩ rfl rfl rfl
    rw [hs, Option.map_some, Option.map_some, Runtime.revocations_step hsocket hs']
  | read request =>
    simp only [Process.step, Runtime.step, Option.bind_eq_bind, Option.bind_eq_some_iff] at hstep
    obtain ⟨t, ⟨s, hs, ht⟩, hq⟩ := hstep
    obtain rfl := Option.some.inj ht
    obtain rfl := Option.some.inj hq
    exact hstill ⟨rfl, rfl, rfl, rfl⟩ rfl rfl rfl
  | prepare n =>
    simp only [Process.step, Runtime.step, Option.bind_eq_bind, Option.bind_eq_some_iff] at hstep
    obtain ⟨t, ⟨s, hs, r, hr, ht⟩, hq⟩ := hstep
    obtain rfl := Option.some.inj ht
    obtain rfl := Option.some.inj hq
    exact hstill ⟨rfl, rfl, rfl, rfl⟩ rfl rfl rfl
  | seed request =>
    simp only [Process.step, Runtime.step, Option.bind_eq_bind, Option.bind_eq_some_iff] at hstep
    obtain ⟨t, ⟨s, hs, ht⟩, hq⟩ := hstep
    split_ifs at ht
    obtain rfl := Option.some.inj ht
    obtain rfl := Option.some.inj hq
    exact hstill ⟨rfl, rfl, rfl, rfl⟩ rfl rfl rfl
  | finish n run =>
    simp only [Process.step, Runtime.step, Option.bind_eq_bind, Option.bind_eq_some_iff] at hstep
    obtain ⟨t, ⟨load, hload, ht⟩, hq⟩ := hstep
    obtain rfl := Option.some.inj ht
    obtain rfl := Option.some.inj hq
    exact hstill ⟨rfl, rfl, rfl, rfl⟩ rfl rfl rfl
  | close =>
    simp only [Process.step, Runtime.step, Option.bind_eq_bind, Option.bind_eq_some_iff] at hstep
    obtain ⟨t, ht, hq⟩ := hstep
    obtain rfl := Option.some.inj ht
    obtain rfl := Option.some.inj hq
    refine hstill ?_ rfl rfl rfl
    split_ifs
    · exact ⟨rfl, rfl, rfl, rfl⟩
    · refine ⟨rfl, rfl, rfl, ?_⟩
      simp only [Runtime.close, Option.map_map]
      rfl

theorem sound_check (h : p.Tracking options c.log c.head) (hstarted : p.runtime.core.isSome) :
    p.check.Sound c.log c.head := by
  obtain ⟨s, hs, hfollows⟩ := h.started hstarted
  refine ⟨hfollows.seen_le, fun event hevent hle => ?_⟩
  have hknown := hfollows.known event hevent hle
  simp only [Process.check, hs, Option.map_some, Option.getD_some]
  exact hknown

theorem Process.Sound.onward (h : p.Sound options c) (htracking : q.Tracking options c.log c.head)
    (honward : p.runtime.Onward q.runtime) (hloads : q.runtime.loads = p.runtime.loads)
    (hissued : q.runtime.issued = p.runtime.issued) (hreads : q.reads = p.reads)
    (hchecked : q.checked = p.checked) : q.Sound options c := by
  constructor
  · exact htracking
  · rw [honward.reading, hreads]
    refine h.reads.imp ?_
    rintro r check ⟨hseq, hsound, hseen, hopened⟩
    exact ⟨hseq, hsound, hseen.trans honward.seen, hopened⟩
  · rw [hloads, hchecked]
    exact h.loads
  · rw [hissued]
    exact h.issued

/-- What a load keeps was neither revoked by the floor, nor stored as revoked, and what was applied
after its grant is still there. -/
theorem keeps_prepareLoad {r : Reading} {s : HubState} (h : p.Sound options c)
    (hs : p.runtime.core = some s) (hseen : r.seq ≤ p.runtime.seen)
    (hopened : ∀ claims ∈ r.request.opened,
      c.Backed claims ∧ claims.exp - claims.iat ≤ options.ttl)
    (hmeets : ∀ claims ∈ r.request.presented, Persists p.applied claims) :
    c.Keeps (prepareLoad s.core.revocations options.authorizes r.request r.down r.seq) := by
  have hpresented {claims : GrantClaims} (hclaims : claims ∈ r.request.presented) :
      claims ∈ r.request.opened := (List.mem_filter.mp hclaims).1
  intro claims hclaims
  have hgrant : claims ∈ r.request.presented := by
    simp only [prepareLoad] at hclaims
    split_ifs at hclaims
    · cases hclaims
    · exact List.mem_of_find?_eq_some hclaims
  refine ⟨(hopened claims (hpresented hgrant)).1, ?_⟩
  intro run id hid held hheld event hevent hle revocation hrevocation htouches
  obtain ⟨claims', -, hhonored, hclaims', hclear⟩ := clear_of_retained hid
  obtain rfl := Option.some.inj (hclaims'.symm.trans hclaims)
  by_contra hlt
  rw [Nat.not_le] at hlt
  obtain ⟨s', hs', hfollows⟩ := h.tracking.started (by rw [hs]; rfl)
  obtain rfl := Option.some.inj (hs.symm.trans hs')
  have hrefused (hrevoked : s.core.revocations.grantRevoked claims' = true) : False := by
    rw [hhonored] at hrevoked
    cases hrevoked
  rcases hfollows.known event hevent (hle.trans hseen) revocation hrevocation with
    hfloor | ⟨a, ha, rfl, haseq⟩
  · exact hrefused (grantRevoked_of_floor (hlt.trans_le hfloor))
  · have howner : held ∈ claims'.owners.values := InsertionMap.mem_values_iff.mpr ⟨id, hheld⟩
    have hs_lt : claims'.s < a.seq := haseq ▸ hlt
    obtain ⟨htime, hexp⟩ := hmeets claims' hgrant held howner a ha htouches hs_lt
    obtain ⟨start, raised, clock, hfaithful, hclock⟩ := hfollows.faithful
    have hclock' : clock ≤ claims'.exp * 1000 - 1 := by
      refine hclock _ (fun b hb => ?_) (List.ne_nil_of_mem ha)
      have hb' := hexp b hb
      omega
    have hvalid : Unexpired claims' options.ttl clock :=
      ⟨(hopened claims' (hpresented hgrant)).2, by omega⟩
    cases hkey : a.event.key with
    | none =>
      exact hrefused (hfaithful.grantRevoked ha hs_lt hvalid hfollows.ttlMs (fun _ => htime) hkey
        htouches.2)
    | some key =>
      have hheldkey : key ∈ held.k := htouches.1 key hkey
      rcases hfaithful.keyRevoked ha hs_lt hvalid hfollows.ttlMs (fun _ => htime) hkey
        htouches.2 with hrevoked | hrevoked
      · have hnot := hclear held hheld key hheldkey
        exact Bool.noConfusion (hnot.symm.trans hrevoked)
      · exact hrefused hrevoked

theorem backed_finish {run : LoadRun} {ttl : ℤ} {down : Bool} (hseq : check.seq = load.seq)
    (hcheck : check.Sound c.log c.head) (hkeeps : c.Keeps load)
    (hran : ∀ entry ∈ run.fresh, ⟨entry.1, entry.2, check⟩ ∈ c.ran)
    (hmeets : load.bind run ∨ ∀ hole ∈ load.retention.holes, hole ∉ run.declared)
    (h : load.finish run ttl down = some claims) : c.Backed claims := by
  obtain ⟨hs, hsub, howners⟩ := of_get_finish h
  refine ⟨?_, fun id held hget => ?_⟩
  · rw [hs, ← hseq]
    exact hcheck.1
  · rcases howners id held hget with ⟨entry, hentry, hid, rfl⟩ | ⟨hid, before, hbefore, hheld⟩
    · refine ⟨_, hran entry hentry, hid, rfl, hseq.ge, fun event hevent hle _ _ _ => ?_⟩
      rw [hs, ← hseq] at hle
      exact ⟨hle, hcheck.2 event hevent hle⟩
    · obtain ⟨hbacked, hunrevoked⟩ := hkeeps before hbefore
      have hbind := bind_of_retained hmeets hid
      have hsame : before.sub = claims.sub := by
        rw [LoadState.bind, Option.mem_def.mp hbefore, Option.all_some, decide_eq_true_eq] at hbind
        rw [hbind, hsub]
      obtain ⟨loader, hloader, hid', hkeys, hw, hknows⟩ := hbacked.vouched id held hheld
      refine ⟨loader, hloader, hid', hkeys, hw, ?_⟩
      intro event hevent hle revocation hrevocation htouches
      rw [← hsame] at htouches
      rw [hs] at hle
      have hold := hunrevoked run id hid held hheld event hevent hle revocation hrevocation htouches
      exact hknows event hevent hold revocation hrevocation htouches

theorem sound_step (hlog : Ordered c.log c.head) (h : p.Sound options c)
    (hissued : ∀ claims ∈ c.issued, c.Backed claims) (hreaches : c.Reaches options p action)
    (hmeets : p.Meets action) (hran : p.loaders action ⊆ c.ran)
    (hstep : p.step options action = some q) : q.Sound options c := by
  have htracking := tracking_step hlog h.tracking hreaches hmeets hstep
  have hcore {r : Runtime} {s : HubState} (hs : r.core = some s) : r.core.isSome := by rw [hs]; rfl
  cases action with
  | start low now =>
    simp only [Process.step, Runtime.step, Option.bind_eq_bind, Option.bind_eq_some_iff] at hstep
    obtain ⟨t, ht, hq⟩ := hstep
    split_ifs at ht with hnone
    obtain rfl := Option.some.inj ht
    obtain rfl := Option.some.inj hq
    have hdrained : Runtime.Drained (p.runtime.started options low)
        ((p.runtime.started options low).startDrain options now) := Runtime.drained_startDrain
    have honward : Runtime.Onward (p.runtime.started options low)
        ((p.runtime.started options low).startDrain options now) := Runtime.onward_startDrain
    obtain ⟨-, hzero, -⟩ := h.tracking.waiting (Option.isNone_iff_eq_none.mp hnone)
    have hseen : p.runtime.seen ≤ (p.runtime.started options low).seen := by
      rw [hzero]
      exact Nat.zero_le _
    exact h.onward htracking ⟨honward.reading, hseen.trans honward.seen⟩ hdrained.loads
      hdrained.issued rfl rfl
  | deliver item now =>
    obtain rfl := Option.some.inj hstep
    have hdrained : Runtime.Drained { p.runtime with queue := p.runtime.queue ++ [item] }
        (p.runtime.enqueue options item now) := Runtime.drained_startDrain
    have honward : Runtime.Onward { p.runtime with queue := p.runtime.queue ++ [item] }
        (p.runtime.enqueue options item now) := Runtime.onward_startDrain
    exact h.onward htracking ⟨honward.reading, honward.seen⟩ hdrained.loads hdrained.issued rfl rfl
  | resume ok now =>
    simp only [Process.step, Runtime.step, Option.bind_eq_bind, Option.bind_eq_some_iff] at hstep
    obtain ⟨t, ht, hq⟩ := hstep
    obtain rfl := Option.some.inj hq
    have hdrained := (Runtime.resume_cases ht).1
    exact h.onward htracking (Runtime.onward_resume ht) hdrained.loads hdrained.issued rfl rfl
  | socket action =>
    simp only [Process.step, Runtime.step, Option.bind_eq_bind, Option.bind_eq_some_iff] at hstep
    obtain ⟨t, ⟨s, hs, ht⟩, hq⟩ := hstep
    split_ifs at ht with hsocket
    obtain ⟨s', hs', rfl⟩ := Option.map_eq_some_iff.mp ht
    obtain rfl := Option.some.inj hq
    exact h.onward htracking ⟨rfl, le_rfl⟩ rfl rfl rfl rfl
  | read request =>
    simp only [Process.step, Runtime.step, Option.bind_eq_bind, Option.bind_eq_some_iff] at hstep
    obtain ⟨t, ⟨s, hs, ht⟩, hq⟩ := hstep
    obtain rfl := Option.some.inj ht
    obtain rfl := Option.some.inj hq
    refine ⟨htracking, ?_, h.loads, h.issued⟩
    refine List.rel_append h.reads (.cons ⟨rfl, sound_check h.tracking (hcore hs), le_rfl, ?_⟩ .nil)
    intro claims hclaims
    obtain ⟨hmem, hvalid⟩ := hreaches claims hclaims
    exact ⟨hissued claims hmem, (Unexpired.of_validAt hvalid).1⟩
  | prepare n =>
    simp only [Process.step, Runtime.step, Option.bind_eq_bind, Option.bind_eq_some_iff] at hstep
    obtain ⟨t, ⟨s, hs, r, hr, ht⟩, hq⟩ := hstep
    obtain rfl := Option.some.inj ht
    obtain rfl := Option.some.inj hq
    obtain ⟨check, hread, hseq, hsound, hseen, hopened⟩ := exists_of_forall₂ h.reads hr
    refine ⟨htracking, forall₂_eraseIdx n h.reads, ?_, h.issued⟩
    simp only [hread, Option.toList_some]
    refine List.rel_append h.loads (.cons ⟨hseq, hsound, ?_⟩ .nil)
    exact keeps_prepareLoad h hs (hseq ▸ hseen) hopened (hmeets r hr)
  | seed request =>
    simp only [Process.step, Runtime.step, Option.bind_eq_bind, Option.bind_eq_some_iff] at hstep
    obtain ⟨t, ⟨s, hs, ht⟩, hq⟩ := hstep
    split_ifs at ht
    obtain rfl := Option.some.inj ht
    obtain rfl := Option.some.inj hq
    refine ⟨htracking, h.reads, ?_, h.issued⟩
    exact List.rel_append h.loads
      (.cons ⟨rfl, sound_check h.tracking (hcore hs), by rintro _ ⟨⟩⟩ .nil)
  | finish n run =>
    simp only [Process.step, Runtime.step, Option.bind_eq_bind, Option.bind_eq_some_iff] at hstep
    obtain ⟨t, ⟨load, hload, ht⟩, hq⟩ := hstep
    obtain rfl := Option.some.inj ht
    obtain rfl := Option.some.inj hq
    obtain ⟨check, hcheck, hseq, hsound, hkeeps⟩ := exists_of_forall₂ h.loads hload
    refine ⟨htracking, h.reads, forall₂_eraseIdx n h.loads, fun claims hclaims => ?_⟩
    rcases List.mem_append.mp hclaims with hclaims | hclaims
    · exact h.issued claims hclaims
    · refine backed_finish hseq hsound hkeeps (fun entry hentry => hran ?_) (hmeets load hload)
        (Option.mem_toList.mp hclaims)
      rw [Process.loaders, hcheck]
      exact List.mem_flatMap.mpr ⟨check, List.mem_singleton.mpr rfl, List.mem_map_of_mem hentry⟩
  | close =>
    simp only [Process.step, Runtime.step, Option.bind_eq_bind, Option.bind_eq_some_iff] at hstep
    obtain ⟨t, ht, hq⟩ := hstep
    by_cases hclosed : p.runtime.closed
    · rw [if_pos hclosed] at ht
      obtain rfl := Option.some.inj ht
      obtain rfl := Option.some.inj hq
      exact h.onward htracking .refl rfl rfl rfl rfl
    · rw [if_neg hclosed] at ht
      obtain rfl := Option.some.inj ht
      obtain rfl := Option.some.inj hq
      exact h.onward htracking ⟨rfl, le_rfl⟩ rfl rfl rfl rfl

theorem sound_spawn : Process.create.Sound options c :=
  ⟨⟨nofun, fun _ => ⟨rfl, rfl, rfl, fun _ => rfl, nofun⟩⟩, .nil, .nil, nofun⟩

theorem Process.Tracking.append_log {event : LiveBusEvent} (hlog : Ordered log head)
    (h : p.Tracking options log head) (hevent : head < event.seq) :
    p.Tracking options (log ++ [event]) event.seq := by
  constructor
  · intro hsome
    obtain ⟨s, hs, hfollows⟩ := h.started hsome
    exact ⟨s, hs, hfollows.append_log hlog hevent⟩
  · intro hnone
    obtain ⟨hidle, hseen, hnil, hqueue, hwaiting⟩ := h.waiting hnone
    exact ⟨hidle, hseen, hnil, hqueue, fun low hlow => (hwaiting low hlow).append_log hlog hevent⟩

theorem Process.Tracking.subscribe {low : ℕ} (h : p.Tracking options log head) (hlow : low ≤ head)
    (hsubscribed : p.subscribed = none) (hcore : p.runtime.core = none) :
    Process.Tracking options log head { p with
      subscribed := some low,
      fetched := low } := by
  obtain ⟨hidle, hseen, hnil, hqueue, -⟩ := h.waiting hcore
  constructor
  · intro hsome
    simp only [hcore] at hsome
    cases hsome
  · refine fun _ => ⟨hidle, hseen, hnil, nofun, fun low' hlow' => ?_⟩
    obtain rfl := Option.some.inj hlow'
    simp only [hqueue hsubscribed]
    exact .start hlow

theorem Cluster.Sound.backed (h : c.Sound options) (hclaims : claims ∈ c.issued) :
    c.Backed claims := by
  obtain ⟨p, hp, hmem⟩ := List.mem_flatMap.mp hclaims
  exact (h.processes p hp).issued claims hmem

theorem Cluster.Sound.step {action : ClusterAction} (h : c.Sound options)
    (hallows : c.Allows options action) (hmeets : c.Meets action)
    (hstep : c.step options action = some d) : d.Sound options := by
  cases action with
  | append event =>
    obtain rfl := Option.some.inj hstep
    obtain ⟨hevent, hsafe⟩ := hallows
    have hgrows : c.Grows { c with
        log := c.log ++ [event],
        head := event.seq } := by
      refine ⟨hevent.le, fun e he => ?_, List.Subset.refl _⟩
      rcases List.mem_append.mp he with he | he
      · exact Or.inl he
      · rw [List.mem_singleton.mp he]
        exact Or.inr hevent
    constructor
    · constructor
      · refine List.pairwise_append.mpr ⟨h.ordered.increasing, List.pairwise_singleton _ _, ?_⟩
        intro e he e' he'
        rw [List.mem_singleton.mp he']
        exact (h.ordered.bound e he).trans_lt hevent
      · intro e he
        rcases List.mem_append.mp he with he | he
        · exact (h.ordered.bound e he).trans hevent.le
        · rw [List.mem_singleton.mp he]
      · intro e he
        rcases List.mem_append.mp he with he | he
        · exact h.ordered.safe e he
        · rw [List.mem_singleton.mp he]
          exact hsafe
    · exact fun p hp => (h.processes p hp).mono hgrows
        ((h.processes p hp).tracking.append_log h.ordered hevent)
  | spawn =>
    obtain rfl := Option.some.inj hstep
    refine ⟨h.ordered, fun p hp => ?_⟩
    rcases List.mem_append.mp hp with hp | hp
    · exact (h.processes p hp).mono ⟨le_rfl, fun _ => Or.inl, List.Subset.refl _⟩
        (h.processes p hp).tracking
    · rw [List.mem_singleton.mp hp]
      exact sound_spawn
  | subscribe n low =>
    simp only [Cluster.step, Option.bind_eq_bind, Option.bind_eq_some_iff] at hstep
    obtain ⟨p, hp, hd⟩ := hstep
    obtain rfl := Option.some.inj hd
    refine ⟨h.ordered, fun q hq => ?_⟩
    rcases List.mem_or_eq_of_mem_set hq with hq | rfl
    · exact (h.processes q hq).mono ⟨le_rfl, fun _ => Or.inl, List.Subset.refl _⟩
        (h.processes q hq).tracking
    · obtain ⟨hlow, hfresh⟩ := hallows
      obtain ⟨hsubscribed, hcore⟩ := hfresh p hp
      have hsound := h.processes p (List.mem_of_getElem? hp)
      have hsame : Process.Sound options c { p with
          subscribed := some low,
          fetched := low } :=
        ⟨hsound.tracking.subscribe hlow hsubscribed hcore, hsound.reads, hsound.loads,
          hsound.issued⟩
      exact hsame.mono ⟨le_rfl, fun _ => Or.inl, List.Subset.refl _⟩ hsame.tracking
  | act n action =>
    simp only [Cluster.step, Option.bind_eq_bind, Option.bind_eq_some_iff] at hstep
    obtain ⟨p, hp, q, hq, hd⟩ := hstep
    obtain rfl := Option.some.inj hd
    have hmore : c.Grows { c with ran := c.ran ++ p.loaders action } :=
      ⟨le_rfl, fun _ => Or.inl, List.subset_append_left _ _⟩
    have hsound {p' : Process} (hp' : p' ∈ c.processes) :
        p'.Sound options { c with ran := c.ran ++ p.loaders action } :=
      (h.processes p' hp').mono hmore (h.processes p' hp').tracking
    refine ⟨h.ordered, fun p' hp' => ?_⟩
    rcases List.mem_or_eq_of_mem_set hp' with hp' | rfl
    · exact (hsound hp').mono ⟨le_rfl, fun _ => Or.inl, List.Subset.refl _⟩ (hsound hp').tracking
    · have hbacked (claims : GrantClaims) (hclaims : claims ∈ c.issued) :
          Cluster.Backed { c with ran := c.ran ++ p.loaders action } claims :=
        (h.backed hclaims).mono hmore
      have hnext := sound_step (c := { c with ran := c.ran ++ p.loaders action }) h.ordered
        (hsound (List.mem_of_getElem? hp)) hbacked (hallows p hp) (hmeets p hp)
        (List.subset_append_right _ _) hq
      exact hnext.mono ⟨le_rfl, fun _ => Or.inl, List.Subset.refl _⟩ hnext.tracking

theorem sound_create : Cluster.create.Sound options :=
  ⟨⟨.nil, fun _ he => absurd he List.not_mem_nil, fun _ he => absurd he List.not_mem_nil⟩,
    fun _ hp => absurd hp List.not_mem_nil⟩

end Sound

namespace Chains

def note : LiveKey := ⟨js "note", by decide⟩

def options : RuntimeOptions :=
  ⟨⟨1, fun key _ => key.text, fun key => key.text.length, 10, 10, none⟩, 100, 120000, 100, 600,
    false⟩

def hole : JSString := holeOwner (js "h") (js "/")

def request (retain : List JSString) (opened : List GrantClaims) : LoadRequest :=
  ⟨⟨js "a", js "page", .load, retain⟩, js "/", some ⟨js "/", []⟩, opened, 0⟩

/-- The grant of a load that ran the loader of the hole for the subject `ann`. -/
def grant : GrantClaims :=
  ⟨js "a", some (js "ann"), js "/", js "page", ⟨[(hole, ⟨[note], 0⟩)], by decide⟩, 0, 0, 0, 600⟩

end Chains

end Nifra.Live
