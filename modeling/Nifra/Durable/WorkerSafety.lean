import Nifra.Durable.LeaseStores
import Nifra.Durable.Worker

/-! # The invariant of the reconciliation worker

Tokens are never shared, and the call that holds the current token knows the stored
cursor. The progress of a page is tied to the history of handled findings.
-/

namespace Nifra.Durable.ReconciliationWorker

open Nifra.Runs

section
variable {R Finding : Type} {B : LeaseStore R} {options : ℕ → Options Finding}
variable {o : Options Finding} {s t : State R Finding} {w w' : ℕ}

/-- Every index taken from a map of this length was handled or still runs. -/
def BoundedMap.Covers (p : BoundedMap) (length : ℕ) (handled : ℕ → Prop) : Prop :=
  p.failure = none →
    (∀ i < p.next, i < length → handled i ∨ .running i ∈ p.tasks) ∧
    (.finished ∈ p.tasks → length ≤ p.next) ∧ (0 < length → p.tasks ≠ [])

namespace BoundedMap

variable {p q : BoundedMap} {length k : ℕ} {handled : ℕ → Prop}

theorem start_covers {concurrency : ℕ} (h : 0 < concurrency) :
    (start length concurrency).Covers length handled := by
  refine fun _ => ⟨fun i hi => absurd hi (Nat.not_lt_zero i), fun hm => ?_, fun hl => ?_⟩
  · cases List.eq_of_mem_replicate hm
  · rw [start, ne_eq, List.replicate_eq_nil_iff]; omega

theorem Covers.mono {handled' : ℕ → Prop} (h : p.Covers length handled)
    (hm : ∀ i, handled i → handled' i) : p.Covers length handled' :=
  fun hf => ⟨fun i hi hl => ((h hf).1 i hi hl).imp_left (hm i), (h hf).2⟩

theorem mem_set_of_ne {tasks : List Task} {a b c : Task} (hk : tasks[k]? = some a)
    (hb : b ∈ tasks) (hne : b ≠ a) : b ∈ tasks.set k c := by
  obtain ⟨j, hj⟩ := List.mem_iff_getElem?.mp hb
  refine List.mem_iff_getElem?.mpr ⟨j, ?_⟩
  rw [List.getElem?_set_ne, hj]
  rintro rfl
  exact hne (Option.some.inj (hj.symm.trans hk))

theorem mem_set_self {tasks : List Task} {a c : Task} (hk : tasks[k]? = some a) :
    c ∈ tasks.set k c := by
  obtain ⟨hlt, _⟩ := List.getElem?_eq_some_iff.mp hk
  exact List.mem_iff_getElem?.mpr ⟨k, List.getElem?_set_self hlt⟩

theorem take_covers (h : p.Covers length handled) (ht : p.take length k = some q) :
    q.Covers length handled := by
  unfold take at ht
  split at ht
  · rename_i hk
    split at ht
    · rename_i hf
      obtain rfl := Option.some.inj ht
      exact fun hn => by simp only at hn; simp [hn] at hf
    split at ht
    · rename_i hf hl
      obtain rfl := Option.some.inj ht
      intro hn
      obtain ⟨h₁, h₂, h₃⟩ := h hn
      refine ⟨fun i hi hil => ?_, fun _ => by dsimp only; omega, fun h₀ => by simpa using h₃ h₀⟩
      rcases h₁ i (by omega) hil with hh | hr
      · exact .inl hh
      · exact .inr (mem_set_of_ne hk hr (by simp))
    · rename_i hf hl
      obtain rfl := Option.some.inj ht
      intro hn
      obtain ⟨h₁, h₂, h₃⟩ := h hn
      refine ⟨fun i hi hil => ?_, fun hm => ?_, fun h₀ => by simpa using h₃ h₀⟩
      · rcases Nat.lt_succ_iff_lt_or_eq.mp hi with hi | rfl
        · rcases h₁ i hi hil with hh | hr
          · exact .inl hh
          · exact .inr (mem_set_of_ne hk hr (by simp))
        · exact .inr (mem_set_self hk)
      · rcases List.mem_or_eq_of_mem_set hm with hm | hm
        · exact absurd (h₂ hm) hl
        · cases hm
  · cases ht

theorem settle_covers {index : ℕ} {error : Option JSError} (h : p.Covers length handled)
    (ht : p.settle k error = some (index, q)) :
    q.Covers length fun i => handled i ∨ (error = none ∧ i = index) := by
  unfold settle at ht
  split at ht
  · rename_i j hk
    obtain ⟨rfl, rfl⟩ := Prod.mk.inj (Option.some.inj ht)
    intro hn
    obtain ⟨hf, he⟩ : p.failure = none ∧ error = none := by simpa using hn
    obtain ⟨h₁, h₂, h₃⟩ := h hf
    refine ⟨fun i hi hil => ?_, fun hm => ?_, fun h₀ => by simpa using h₃ h₀⟩
    · rcases h₁ i hi hil with hh | hr
      · exact .inl (.inl hh)
      · by_cases hij : i = j
        · exact .inl (.inr ⟨he, hij⟩)
        · exact .inr (mem_set_of_ne hk hr (by simpa using hij))
    · rcases List.mem_or_eq_of_mem_set hm with hm | hm
      · exact h₂ hm
      · cases hm
  · cases ht

theorem Covers.all_handled (h : p.Covers length handled) (hf : p.failure = none)
    (ht : p.tasks.all (· == .finished) = true) : ∀ i < length, handled i := by
  intro i hi
  have hfin : ∀ a ∈ p.tasks, a = .finished := by simpa using ht
  obtain ⟨h₁, h₂, h₃⟩ := h hf
  obtain ⟨a, ha⟩ := List.exists_mem_of_ne_nil _ (h₃ (by omega))
  have hl := h₂ (hfin a ha ▸ ha)
  rcases h₁ i (by omega) hi with hh | hr
  · exact hh
  · cases hfin _ hr

end BoundedMap

def Worker.token : Worker Finding → Option JSString
  | .answered _ (some lease) => some lease.token
  | .running session _ => some session.lease.token
  | _ => none

def Worker.Agrees (cursor : Option JSString) : Worker Finding → Prop
  | .answered _ (some lease) => lease.cursor = cursor
  | .running _ (.checkpointed page true) => page.cursor = cursor
  | .running _ (.release _) => True
  | .running session _ => session.cursor = cursor
  | _ => True

/-- The history shows the page in hand scanned from the call's cursor. -/
def ScannedFrom (history : List (Entry Finding)) (w : ℕ) (session : Session)
    (page : Page Finding) : Prop :=
  .scanned w session.pages session.cursor page ∈ history

/-- The history shows every selected finding of the page in hand handled. -/
def AllHandled (o : Options Finding) (history : List (Entry Finding)) (w : ℕ)
    (session : Session) (page : Page Finding) : Prop :=
  ∀ i < (selected o page).length, .handled w session.pages i ∈ history

/-- What the history must show about a call at each point of its loop. -/
def Worker.Shown (o : Options Finding) (history : List (Entry Finding)) (w : ℕ) :
    Worker Finding → Prop
  | .running session (.handle page pool) => ScannedFrom history w session page ∧
      pool.Covers (selected o page).length fun i => .handled w session.pages i ∈ history
  | .running session (.renewAfterWork page _) | .running session (.renewedAfterWork page _)
  | .running session (.checkpoint page) =>
    ScannedFrom history w session page ∧ AllHandled o history w session page
  | _ => True

theorem Worker.Shown.mono {history history' : List (Entry Finding)} {worker : Worker Finding}
    (h : worker.Shown o history w) (hsub : ∀ e ∈ history, e ∈ history') :
    worker.Shown o history' w := by
  unfold Shown at h ⊢
  split at h
  · exact ⟨hsub _ h.1, h.2.mono fun i => hsub _⟩
  · exact ⟨hsub _ h.1, fun i hi => hsub _ (h.2 i hi)⟩
  · exact ⟨hsub _ h.1, fun i hi => hsub _ (h.2 i hi)⟩
  · exact ⟨hsub _ h.1, fun i hi => hsub _ (h.2 i hi)⟩
  · trivial

/-- Tokens are never shared, and a call whose token is current knows the stored cursor. -/
structure Inv (B : LeaseStore R) (options : ℕ → Options Finding) (s : State R Finding) :
    Prop where
  record_issued : ∀ n token, (B.view (s.leases n)).token = some token → token ∈ s.issued
  worker_issued : ∀ w token, (s.workers w).token = some token → token ∈ s.issued
  worker_unique : ∀ w w' token, (s.workers w).token = some token →
    (s.workers w').token = some token → w = w'
  name : ∀ n w token, (B.view (s.leases n)).token = some token →
    (s.workers w).token = some token → (options w).name = n
  cursor : ∀ n w token, (B.view (s.leases n)).token = some token →
    (s.workers w).token = some token → (s.workers w).Agrees (B.view (s.leases n)).cursor
  shown : ∀ w, (s.workers w).Shown (options w) s.history w

/-- A call that keeps, or drops, its token and the cursor that goes with it. -/
def Worker.Keeps (worker next : Worker Finding) : Prop :=
  next.token = none ∨
    next.token = worker.token ∧ ∀ cursor, worker.Agrees cursor → next.Agrees cursor

theorem Worker.Keeps.token {worker next : Worker Finding} (h : worker.Keeps next)
    {token : JSString} (ht : next.token = some token) :
    worker.token = some token ∧ ∀ cursor, worker.Agrees cursor → next.Agrees cursor := by
  rcases h with h | ⟨h, he⟩
  · rw [h] at ht; cases ht
  · exact ⟨h ▸ ht, he⟩

theorem begin_token (o : Options Finding) (now : ℕ) : (begin o now).token = none := by
  unfold begin; split <;> rfl

theorem begin_shown (o : Options Finding) (now : ℕ) (history : List (Entry Finding)) :
    (begin o now).Shown o history w := by
  unfold begin; split <;> trivial

theorem fail_spec {session : Session} {point : Point Finding} (e : JSError)
    (history : List (Entry Finding)) : (Worker.running session point).Keeps (session.fail e) ∧
      (session.fail e : Worker Finding).Shown o history w :=
  ⟨.inr ⟨rfl, fun _ _ => trivial⟩, trivial⟩

theorem done_spec {worker : Worker Finding} (outcome : Outcome)
    (history : List (Entry Finding)) : worker.Keeps (.done outcome) ∧
      (Worker.done outcome : Worker Finding).Shown o history w :=
  ⟨.inl rfl, trivial⟩

theorem proceed_spec {now : ℕ} {worker next : Worker Finding} {history : List (Entry Finding)}
    (h : proceed o now worker = some next) (hs : worker.Shown o history w) :
    worker.Keeps next ∧ next.Shown o history w := by
  unfold proceed at h
  split at h
  · obtain rfl := Option.some.inj h
    exact done_spec _ _
  · split at h <;> obtain rfl := Option.some.inj h
    · exact ⟨.inr ⟨rfl, fun _ h => h⟩, trivial⟩
    · exact done_spec _ _
  · split at h
    · split at h <;> obtain rfl := Option.some.inj h
      · exact ⟨.inr ⟨rfl, fun _ h => h⟩, trivial⟩
      · exact fail_spec _ _
    · obtain rfl := Option.some.inj h
      exact ⟨.inr ⟨rfl, fun _ _ => trivial⟩, trivial⟩
  · split at h <;> obtain rfl := Option.some.inj h
    · exact ⟨.inr ⟨rfl, fun _ h => h⟩, trivial⟩
    · exact fail_spec _ _
  · split at h
    · rename_i hall
      split at h
      · obtain rfl := Option.some.inj h
        exact fail_spec _ _
      · rename_i hf
        split at h <;> obtain rfl := Option.some.inj h
        · exact ⟨.inr ⟨rfl, fun _ h => h⟩, hs.1, hs.2.all_handled hf hall⟩
        · exact fail_spec _ _
    · cases h
  · split at h <;> obtain rfl := Option.some.inj h
    · exact ⟨.inr ⟨rfl, fun _ h => h⟩, hs⟩
    · exact fail_spec _ _
  · rename_i session page ok
    cases ok with
    | false =>
      obtain rfl := Option.some.inj h
      exact fail_spec _ _
    | true =>
      simp only [if_true] at h
      split at h <;> obtain rfl := Option.some.inj h
      · exact ⟨.inr ⟨rfl, fun _ _ => trivial⟩, trivial⟩
      · exact ⟨.inr ⟨rfl, fun _ h => h⟩, trivial⟩
  · cases h

theorem raise_spec {e : JSError} {worker next : Worker Finding}
    (h : raise e worker = some next) (o : Options Finding) (history : List (Entry Finding))
    (w : ℕ) : worker.Keeps next ∧ next.Shown o history w := by
  unfold raise at h
  split at h
  · obtain rfl := Option.some.inj h; exact done_spec _ _
  · obtain rfl := Option.some.inj h; exact done_spec _ _
  · cases h
  · obtain rfl := Option.some.inj h; exact done_spec _ _
  · obtain rfl := Option.some.inj h; exact fail_spec _ _
  · cases h

/-- The operations of the store, by what they do to the token and the cursor. -/
inductive Performed (o : Options Finding) (v v' : LeaseView) (uuid : JSString) :
    Worker Finding → Worker Finding → Prop
  | granted {c : Settings} {now : ℕ} {lease : ReconciliationLease} :
      lease.token = uuid → lease.cursor = v.cursor → v'.token = some uuid →
      v'.cursor = v.cursor → Performed o v v' uuid (.acquiring c now) (.answered c (some lease))
  | checkpointed {session : Session} {page : Page Finding} :
      v.HeldBy o.owner session.lease.token → v'.token = v.token → v'.cursor = page.cursor →
      Performed o v v' uuid (.running session (.checkpoint page))
        (.running session (.checkpointed page true))
  | kept {worker next : Worker Finding} :
      worker.Keeps next → (v'.token = v.token ∨ v'.token = none) → v'.cursor = v.cursor →
      (∀ history w, worker.Shown o history w → next.Shown o history w) →
      (∀ token, worker.token = some token → v.token ≠ some token → v' = v) →
      Performed o v v' uuid worker next

theorem renew_spec {v v' : LeaseView} {input : RenewInput} {ok : Bool}
    (h : (ok, v') = v.renew input) : v'.token = v.token ∧ v'.cursor = v.cursor ∧
      (v.token ≠ some input.token → v' = v) := by
  unfold LeaseView.renew at h
  split at h
  · rename_i hh
    obtain ⟨-, rfl⟩ := Prod.mk.inj h
    exact ⟨rfl, rfl, fun hne => absurd hh.1.2 hne⟩
  · obtain ⟨-, rfl⟩ := Prod.mk.inj h
    exact ⟨rfl, rfl, fun _ => rfl⟩

theorem checkpoint_spec {v v' : LeaseView} {input : CheckpointInput} {ok : Bool}
    (h : (ok, v') = v.checkpoint input) :
    ok = true ∧ v.HeldBy input.owner input.token ∧ v'.token = v.token ∧
      v'.cursor = input.cursor ∨ ok = false ∧ v' = v := by
  unfold LeaseView.checkpoint at h
  split at h <;> obtain ⟨rfl, rfl⟩ := Prod.mk.inj h
  · rename_i hh
    exact .inl ⟨rfl, hh, rfl, rfl⟩
  · exact .inr ⟨rfl, rfl⟩

theorem release_spec {v v' : LeaseView} {input : ReleaseInput} {ok : Bool}
    (h : (ok, v') = v.release input) : v'.cursor = v.cursor ∧
      (v.token = some input.token ∧ v'.token = none ∨ v' = v) := by
  unfold LeaseView.release at h
  split at h <;> obtain ⟨rfl, rfl⟩ := Prod.mk.inj h
  · rename_i hh
    exact ⟨rfl, .inl ⟨hh.2, rfl⟩⟩
  · exact ⟨rfl, .inr rfl⟩

theorem perform_spec {record next : Option R} {uuid : JSString} {worker worker' : Worker Finding}
    (h : perform B o record uuid worker = some (worker', next)) :
    Performed o (B.view record) (B.view next) uuid worker worker' := by
  unfold perform at h
  split at h
  · split at h <;> obtain ⟨rfl, rfl⟩ := Prod.mk.inj (Option.some.inj h)
    · rename_i hok
      have hr := B.acquire_rule _ _ _ _ _ hok
      unfold LeaseView.acquire at hr
      split at hr <;> obtain ⟨rfl, hv⟩ := Prod.mk.inj hr <;> rw [hv]
      · exact .kept (.inl rfl) (.inl rfl) rfl (fun _ _ _ => trivial) fun _ ht => by cases ht
      · exact .granted rfl rfl rfl rfl
    · exact .kept (.inl rfl) (.inl rfl) rfl (fun _ _ _ => trivial) fun _ ht => by cases ht
  · split at h <;> obtain ⟨rfl, rfl⟩ := Prod.mk.inj (Option.some.inj h)
    · rename_i hok
      obtain ⟨ht, hc, hn⟩ := renew_spec (B.renew_rule _ _ _ _ hok)
      exact .kept (.inr ⟨rfl, fun _ h => h⟩) (.inl ht) hc (fun _ _ h => h)
        fun _ ht hne => hn fun he => hne (he.trans ht)
    · exact .kept (fail_spec (o := o) (w := 0) _ []).1 (.inl rfl) rfl (fun _ _ _ => trivial)
        fun _ _ _ => rfl
  · split at h <;> obtain ⟨rfl, rfl⟩ := Prod.mk.inj (Option.some.inj h)
    · rename_i hok
      obtain ⟨ht, hc, hn⟩ := renew_spec (B.renew_rule _ _ _ _ hok)
      exact .kept (.inr ⟨rfl, fun _ h => h⟩) (.inl ht) hc (fun _ _ h => h)
        fun _ ht hne => hn fun he => hne (he.trans ht)
    · exact .kept (fail_spec (o := o) (w := 0) _ []).1 (.inl rfl) rfl (fun _ _ _ => trivial)
        fun _ _ _ => rfl
  · rename_i session page
    obtain ⟨rfl, rfl⟩ := Prod.mk.inj (Option.some.inj h)
    have hr := B.checkpoint_rule record ⟨o.name, o.owner, session.lease.token, page.cursor⟩
    rcases checkpoint_spec hr with ⟨hok, hh, ht, hc⟩ | ⟨hok, hv⟩
    · have hok' : (B.checkpoint record _).1 = true := hok
      rw [hok']
      exact .checkpointed hh ht hc
    · have hok' : (B.checkpoint record _).1 = false := hok
      rw [hok']
      exact .kept (.inr ⟨rfl, fun _ h => h⟩) (.inl (congrArg LeaseView.token hv))
        (congrArg LeaseView.cursor hv) (fun _ _ _ => trivial) fun _ _ _ => hv
  · rename_i session outcome
    obtain ⟨rfl, rfl⟩ := Prod.mk.inj (Option.some.inj h)
    have hr := B.release_rule record ⟨o.name, o.owner, session.lease.token⟩
    obtain ⟨hc, ⟨hh, ht⟩ | hv⟩ := release_spec hr
    · exact .kept (.inl rfl) (.inr ht) hc (fun _ _ _ => trivial)
        fun token ht hne => absurd (hh.trans ht) hne
    · exact .kept (.inl rfl) (.inl (congrArg LeaseView.token hv)) hc
        (fun _ _ _ => trivial) fun _ _ _ => hv
  · cases h

theorem inv_init : Inv B options .init where
  record_issued n token h := by simp [State.init, B.view_none] at h
  worker_issued w token h := by cases h
  worker_unique w w' token h := by cases h
  name n w token h := by simp [State.init, B.view_none] at h
  cursor n w token h := by simp [State.init, B.view_none] at h
  shown w := trivial

theorem setWorker_workers (s : State R Finding) (w w' : ℕ) (next : Worker Finding) :
    (s.setWorker w next).workers w' = if w' = w then next else s.workers w' := by
  simp [State.setWorker, Function.update_apply]

theorem Inv.local_step (h : Inv B options s) {next : Worker Finding}
    {history : List (Entry Finding)} (hk : (s.workers w).Keeps next)
    (hs : next.Shown (options w) history w) (hsub : ∀ e ∈ s.history, e ∈ history) :
    Inv B options { s.setWorker w next with history := history } := by
  have htok : ∀ w' token, ((s.setWorker w next).workers w').token = some token →
      (s.workers w').token = some token := by
    intro w' token ht
    rw [setWorker_workers] at ht
    split at ht
    · rename_i he; exact he ▸ (hk.token ht).1
    · exact ht
  constructor
  · exact h.record_issued
  · exact fun w' token ht => h.worker_issued w' token (htok w' token ht)
  · exact fun w₁ w₂ token h₁ h₂ =>
      h.worker_unique w₁ w₂ token (htok _ _ h₁) (htok _ _ h₂)
  · exact fun n w' token hn ht => h.name n w' token hn (htok _ _ ht)
  · intro n w' token hn ht
    have hc := h.cursor n w' token hn (htok _ _ ht)
    dsimp only at ht ⊢
    rw [setWorker_workers] at ht ⊢
    split at ht
    · rename_i he
      rw [if_pos he]
      exact (hk.token ht).2 _ (he ▸ hc)
    · rename_i he
      rw [if_neg he]
      exact hc
  · intro w'
    dsimp only
    rw [setWorker_workers]
    split
    · rename_i he; exact he ▸ hs
    · exact (h.shown w').mono hsub

theorem Inv.store_step (h : Inv B options s) {uuid : JSString} (hu : uuid ∉ s.issued)
    {worker : Worker Finding} {record : Option R}
    (hp : Performed (options w) (B.view (s.leases (options w).name)) (B.view record) uuid
      (s.workers w) worker) :
    Inv B options { (s.setWorker w worker) with
      leases := Function.update s.leases (options w).name record
      issued := uuid :: s.issued } := by
  have hview : ∀ n, B.view (Function.update s.leases (options w).name record n) =
      if n = (options w).name then B.view record else B.view (s.leases n) := by
    intro n; rw [Function.update_apply]; split <;> rfl
  have hrec : ∀ token, (B.view record).token = some token →
      (B.view (s.leases (options w).name)).token = some token ∨ token = uuid := by
    intro token ht
    generalize s.workers w = current at hp
    cases hp with
    | granted _ _ h' _ => exact .inr (Option.some.inj (ht.symm.trans h'))
    | checkpointed _ h' _ => exact .inl (h' ▸ ht)
    | kept _ h' _ _ _ =>
      rcases h' with h' | h'
      · exact .inl (h' ▸ ht)
      · rw [h'] at ht; cases ht
  have hwork : ∀ token, worker.token = some token →
      (s.workers w).token = some token ∨ token = uuid := by
    intro token ht
    generalize s.workers w = current at hp
    cases hp with
    | granted hl _ _ _ => exact .inr ((Option.some.inj ht).symm.trans hl)
    | checkpointed _ _ _ => exact .inl ht
    | kept hk _ _ _ _ => exact .inl (hk.token ht).1
  have htok : ∀ w' token, ((s.setWorker w worker).workers w').token = some token →
      (s.workers w').token = some token ∨ w' = w ∧ token = uuid := by
    intro w' token ht
    rw [setWorker_workers] at ht
    split at ht
    · rename_i he; exact (hwork token ht).imp (he ▸ ·) fun hu => ⟨he, hu⟩
    · exact .inl ht
  have hfresh : ∀ w' token, (s.workers w').token = some token → token ≠ uuid :=
    fun w' token ht he => hu (he ▸ h.worker_issued w' token ht)
  have hfresh' : ∀ n token, (B.view (s.leases n)).token = some token → token ≠ uuid :=
    fun n token ht he => hu (he ▸ h.record_issued n token ht)
  constructor
  · intro n token hn
    dsimp only at hn
    rw [hview] at hn
    split at hn
    · rcases hrec token hn with hr | rfl
      · exact List.mem_cons_of_mem _ (h.record_issued _ _ hr)
      · exact List.mem_cons_self
    · exact List.mem_cons_of_mem _ (h.record_issued _ _ hn)
  · intro w' token ht
    rcases htok w' token ht with ht | ⟨-, rfl⟩
    · exact List.mem_cons_of_mem _ (h.worker_issued _ _ ht)
    · exact List.mem_cons_self
  · intro w₁ w₂ token h₁ h₂
    rcases htok _ _ h₁ with ht₁ | ⟨hw₁, he₁⟩ <;> rcases htok _ _ h₂ with ht₂ | ⟨hw₂, he₂⟩
    · exact h.worker_unique w₁ w₂ token ht₁ ht₂
    · exact absurd he₂ (hfresh _ _ ht₁)
    · exact absurd he₁ (hfresh _ _ ht₂)
    · exact hw₁.trans hw₂.symm
  · intro n w' token hn ht
    dsimp only at hn
    rw [hview] at hn
    rcases htok _ _ ht with ht' | ⟨hw, he⟩
    · split at hn
      · rename_i hname
        rcases hrec token hn with hr | he
        · exact hname ▸ h.name _ w' token hr ht'
        · exact absurd he (hfresh _ _ ht')
      · exact h.name n w' token hn ht'
    · split at hn
      · rename_i hname; rw [hw, hname]
      · exact absurd he (hfresh' _ _ hn)
  · intro n w' token hn ht
    dsimp only at hn ht ⊢
    rw [hview] at hn ⊢
    by_cases hname : n = (options w).name
    · rw [if_pos hname] at hn ⊢
      by_cases hw : w' = w
      · subst hw
        rw [setWorker_workers, if_pos rfl] at ht ⊢
        have hcur : ∀ token, (s.workers w').token = some token →
            (B.view record).token = some token → token ≠ uuid →
            (s.workers w').Agrees (B.view (s.leases (options w').name)).cursor := by
          intro token h₁ h₂ h₃
          exact h.cursor _ w' token ((hrec token h₂).resolve_right h₃) h₁
        revert hcur ht
        generalize hw' : s.workers w' = current at hp
        intro ht hcur
        cases hp with
        | granted _ hl _ hv => rw [hv]; exact hl
        | checkpointed _ _ hv => rw [hv]; rfl
        | kept hk _ hv _ _ =>
          obtain ⟨ht', ha⟩ := hk.token ht
          rw [hv]
          exact ha _ (hcur token ht' hn (hfresh w' token (hw' ▸ ht')))
      · rw [setWorker_workers, if_neg hw] at ht ⊢
        have hr := (hrec token hn).resolve_right (hfresh _ _ ht)
        have hc := h.cursor _ w' token hr ht
        have hcursor : (B.view record).cursor =
            (B.view (s.leases (options w).name)).cursor := by
          revert hp
          generalize hw' : s.workers w = current
          intro hp
          cases hp with
          | granted _ _ _ hv => exact hv
          | kept _ _ hv _ _ => exact hv
          | checkpointed hh _ _ =>
            refine absurd (h.worker_unique w' w token ht ?_) hw
            rw [hw']
            exact hh.2.symm.trans hr
        rw [hcursor]; exact hc
    · rw [if_neg hname] at hn ⊢
      rcases htok _ _ ht with ht' | ⟨-, he⟩
      · have hne : w' ≠ w := by
          rintro rfl
          exact hname (h.name n w' token hn ht').symm
        rw [setWorker_workers, if_neg hne]
        exact h.cursor n w' token hn ht'
      · exact absurd he (hfresh' _ _ hn)
  · intro w'
    dsimp only
    rw [setWorker_workers]
    split
    · rename_i he
      have hs := h.shown w
      subst he
      revert hp hs
      generalize s.workers w' = current
      intro hp hs
      cases hp with
      | granted => trivial
      | checkpointed => trivial
      | kept _ _ _ hkeep _ => exact hkeep _ _ hs
    · exact h.shown w'

theorem Inv.step {e : Event Finding} (h : Inv B options s)
    (hs : step B options s e = some t) : Inv B options t := by
  cases e with
  | call w now =>
    simp only [ReconciliationWorker.step] at hs
    split at hs
    · obtain rfl := Option.some.inj hs
      exact h.local_step (.inl (begin_token _ _)) (begin_shown _ _ _) fun _ he => he
    · cases hs
  | store w uuid =>
    simp only [ReconciliationWorker.step] at hs
    split at hs
    · cases hs
    · rename_i hu
      obtain ⟨⟨worker, record⟩, hp, rfl⟩ := Option.map_eq_some_iff.mp hs
      exact h.store_step hu (perform_spec hp)
  | proceed w now =>
    obtain ⟨next, hp, rfl⟩ := Option.map_eq_some_iff.mp hs
    obtain ⟨hk, hsh⟩ := proceed_spec hp (h.shown w)
    exact h.local_step hk hsh fun _ he => he
  | scanned w page =>
    simp only [ReconciliationWorker.step] at hs
    split at hs
    · rename_i session hw
      split at hs <;> obtain rfl := Option.some.inj hs
      · exact h.local_step (hw ▸ (fail_spec (w := w) (o := options w) _ s.history).1) trivial
          fun _ he => he
      · refine h.local_step (hw ▸ .inr ⟨rfl, fun _ h => h⟩) ⟨List.mem_cons_self, ?_⟩
          fun _ he => List.mem_cons_of_mem _ he
        exact BoundedMap.start_covers session.settings.concurrency.2.1
    · cases hs
  | take w k =>
    simp only [ReconciliationWorker.step] at hs
    split at hs
    · rename_i session page pool hw
      obtain ⟨next, hp, rfl⟩ := Option.map_eq_some_iff.mp hs
      have hsh := h.shown w
      rw [hw] at hsh
      exact h.local_step (hw ▸ .inr ⟨rfl, fun _ h => h⟩)
        ⟨hsh.1, BoundedMap.take_covers hsh.2 hp⟩ fun _ he => he
    · cases hs
  | settle w k error =>
    simp only [ReconciliationWorker.step] at hs
    split at hs
    · rename_i session page pool hw
      obtain ⟨⟨index, next⟩, hp, rfl⟩ := Option.map_eq_some_iff.mp hs
      have hsh := h.shown w
      rw [hw] at hsh
      have hcov := BoundedMap.settle_covers hsh.2 hp
      cases error with
      | some e =>
        refine h.local_step (hw ▸ .inr ⟨rfl, fun _ h => h⟩) ⟨hsh.1, hcov.mono ?_⟩ fun _ he => he
        rintro i (hi | ⟨he, -⟩)
        · exact hi
        · cases he
      | none =>
        refine h.local_step (hw ▸ .inr ⟨rfl, fun _ h => h⟩)
          ⟨List.mem_cons_of_mem _ hsh.1, hcov.mono ?_⟩ fun _ he => List.mem_cons_of_mem _ he
        rintro i (hi | ⟨-, rfl⟩)
        · exact List.mem_cons_of_mem _ hi
        · exact List.mem_cons_self
    · cases hs
  | raise w e =>
    obtain ⟨next, hp, rfl⟩ := Option.map_eq_some_iff.mp hs
    obtain ⟨hk, hsh⟩ := raise_spec hp (options w) s.history w
    exact h.local_step hk hsh fun _ he => he
  | crash w =>
    obtain rfl := Option.some.inj hs
    exact h.local_step (.inl rfl) trivial fun _ he => he

theorem inv_reachable (h : Reachable (step B options) .init s) : Inv B options s :=
  h.invariant inv_init fun _ _ _ hi hs => hi.step hs

end

/-! ## Safety of the reconciliation worker

The stored cursor moves only from the cursor a call scanned to the cursor of the page
it handled in full, while its token is current. A call whose token was superseded
changes no lease, and no two tokens can renew.
-/

variable {R Finding : Type} {B : LeaseStore R} {options : ℕ → Options Finding}
variable {o : Options Finding} {s t : State R Finding} {w w' : ℕ}

def Worker.Numbers (w : ℕ) (history : List (Entry Finding)) : Worker Finding → Prop
  | .running session _ => ∀ n c page, .scanned w n c page ∈ history → n ≤ session.pages
  | .done _ => True
  | _ => ∀ n c page, .scanned w n c page ∉ history

structure Numbered (s : State R Finding) : Prop where
  numbers : ∀ w, (s.workers w).Numbers w s.history
  unique : ∀ w n c page c' page', .scanned w n c page ∈ s.history →
    .scanned w n c' page' ∈ s.history → c = c' ∧ page = page'

theorem begin_numbers {now : ℕ} {history : List (Entry Finding)}
    (h : (Worker.idle : Worker Finding).Numbers w history) : (begin o now).Numbers w history := by
  unfold begin; split
  · exact h
  · trivial
  · trivial

theorem proceed_numbers {now : ℕ} {worker next : Worker Finding}
    {history : List (Entry Finding)} (h : proceed o now worker = some next)
    (hs : worker.Numbers w history) : next.Numbers w history := by
  unfold proceed at h
  (repeat' split at h) <;> first
    | cases h; done
    | (obtain rfl := Option.some.inj h; first
        | exact hs
        | trivial
        | exact fun n c page hm => absurd hm (hs n c page))

theorem raise_numbers {e : JSError} {worker next : Worker Finding}
    {history : List (Entry Finding)} (h : raise e worker = some next)
    (hs : worker.Numbers w history) : next.Numbers w history := by
  unfold raise at h
  split at h <;> first
    | cases h; done
    | (obtain rfl := Option.some.inj h; trivial)

theorem perform_numbers {record next : Option R} {uuid : JSString}
    {worker worker' : Worker Finding} {history : List (Entry Finding)}
    (h : perform B o record uuid worker = some (worker', next))
    (hs : worker.Numbers w history) : worker'.Numbers w history := by
  unfold perform at h
  split at h
  · split at h <;> obtain ⟨rfl, rfl⟩ := Prod.mk.inj (Option.some.inj h)
    · exact hs
    · trivial
  · split at h <;> obtain ⟨rfl, rfl⟩ := Prod.mk.inj (Option.some.inj h) <;> exact hs
  · split at h <;> obtain ⟨rfl, rfl⟩ := Prod.mk.inj (Option.some.inj h) <;> exact hs
  · obtain ⟨rfl, rfl⟩ := Prod.mk.inj (Option.some.inj h); exact hs
  · obtain ⟨rfl, rfl⟩ := Prod.mk.inj (Option.some.inj h); trivial
  · cases h

theorem Worker.Numbers.mono {worker : Worker Finding} {history history' : List (Entry Finding)}
    (h : worker.Numbers w history)
    (hsub : ∀ n c page, .scanned w n c page ∈ history' → .scanned w n c page ∈ history) :
    worker.Numbers w history' := by
  unfold Numbers at h ⊢
  split at h
  · exact fun n c page hm => h n c page (hsub n c page hm)
  · trivial
  · exact fun n c page hm => h n c page (hsub n c page hm)

theorem Numbered.local_step (h : Numbered s) {next : Worker Finding}
    (hn : next.Numbers w s.history) : Numbered (s.setWorker w next) where
  numbers w' := by
    rw [setWorker_workers]
    split
    · rename_i he; exact he ▸ hn
    · exact h.numbers w'
  unique := h.unique

theorem Numbered.step {e : Event Finding} (h : Numbered s)
    (hs : step B options s e = some t) : Numbered t := by
  cases e with
  | call w now =>
    simp only [ReconciliationWorker.step] at hs
    split at hs
    · rename_i hw
      obtain rfl := Option.some.inj hs
      exact h.local_step (begin_numbers (hw ▸ h.numbers w))
    · cases hs
  | store w uuid =>
    simp only [ReconciliationWorker.step] at hs
    split at hs
    · cases hs
    · obtain ⟨⟨worker, record⟩, hp, rfl⟩ := Option.map_eq_some_iff.mp hs
      have hl := h.local_step (perform_numbers hp (h.numbers w))
      exact ⟨hl.numbers, hl.unique⟩
  | proceed w now =>
    obtain ⟨next, hp, rfl⟩ := Option.map_eq_some_iff.mp hs
    exact h.local_step (proceed_numbers hp (h.numbers w))
  | scanned w page =>
    simp only [ReconciliationWorker.step] at hs
    split at hs
    · rename_i session hw
      have hb := h.numbers w
      rw [hw] at hb
      split at hs <;> obtain rfl := Option.some.inj hs
      · exact h.local_step hb
      · constructor
        · intro w'
          dsimp only
          rw [setWorker_workers]
          split
          · rename_i he
            intro n c page' hm
            rcases List.mem_cons.mp hm with hm | hm
            · cases hm; exact le_rfl
            · exact (hb n c page' (he ▸ hm)).trans (Nat.le_succ _)
          · rename_i he
            refine (h.numbers w').mono fun n c page' hm => (List.mem_cons.mp hm).resolve_left ?_
            rintro ⟨⟩
            exact he rfl
        · intro w' n c p c' p' h₁ h₂
          rcases List.mem_cons.mp h₁ with he₁ | hm₁ <;> rcases List.mem_cons.mp h₂ with he₂ | hm₂
          · cases he₁; cases he₂; exact ⟨rfl, rfl⟩
          · cases he₁
            exact absurd (hb _ _ _ hm₂) (Nat.not_succ_le_self _)
          · cases he₂
            exact absurd (hb _ _ _ hm₁) (Nat.not_succ_le_self _)
          · exact h.unique w' n c p c' p' hm₁ hm₂
    · cases hs
  | take w k =>
    simp only [ReconciliationWorker.step] at hs
    split at hs
    · rename_i session page pool hw
      obtain ⟨next, hp, rfl⟩ := Option.map_eq_some_iff.mp hs
      have hb := h.numbers w
      rw [hw] at hb
      exact h.local_step hb
    · cases hs
  | settle w k error =>
    simp only [ReconciliationWorker.step] at hs
    split at hs
    · rename_i session page pool hw
      obtain ⟨⟨index, next⟩, hp, rfl⟩ := Option.map_eq_some_iff.mp hs
      have hb := h.numbers w
      rw [hw] at hb
      cases error with
      | some e => exact h.local_step hb
      | none =>
        have hl : Numbered (s.setWorker w
            (.running { session with handled := session.handled + 1 } (.handle page next))) :=
          h.local_step hb
        have hback : ∀ w' n c page', .scanned w' n c page' ∈
            Entry.handled w session.pages index :: s.history →
            .scanned w' n c page' ∈ s.history := by
          intro w' n c page' hm
          rcases List.mem_cons.mp hm with hm | hm
          · cases hm
          · exact hm
        exact ⟨fun w' => (hl.numbers w').mono (hback w'),
          fun w' n c p c' p' h₁ h₂ => h.unique w' n c p c' p' (hback _ _ _ _ h₁) (hback _ _ _ _ h₂)⟩
    · cases hs
  | raise w e =>
    obtain ⟨next, hp, rfl⟩ := Option.map_eq_some_iff.mp hs
    exact h.local_step (raise_numbers hp (h.numbers w))
  | crash w =>
    obtain rfl := Option.some.inj hs
    exact h.local_step trivial

theorem numbered_init : Numbered (.init : State R Finding) where
  numbers _ _ _ _ hm := by cases hm
  unique _ _ _ _ _ _ hm := by cases hm

theorem numbered_reachable (h : Reachable (step B options) .init s) : Numbered s :=
  h.invariant numbered_init fun _ _ _ hi hs => hi.step hs

theorem leases_of_step {e : Event Finding} (hs : step B options s e = some t)
    (he : ∀ w uuid, e ≠ .store w uuid) : t.leases = s.leases := by
  cases e with
  | store w uuid => exact absurd rfl (he w uuid)
  | crash w => obtain rfl := Option.some.inj hs; rfl
  | _ =>
    simp only [ReconciliationWorker.step] at hs
    (repeat' split at hs) <;> first
      | cases hs; done
      | (obtain rfl := Option.some.inj hs; rfl)
      | (obtain ⟨_, _, rfl⟩ := Option.map_eq_some_iff.mp hs; rfl)

theorem store_cases {w : ℕ} {uuid : JSString}
    (hs : step B options s (.store w uuid) = some t) :
    (∀ n, n ≠ (options w).name → t.leases n = s.leases n) ∧
      ∃ worker, Performed (options w) (B.view (s.leases (options w).name))
        (B.view (t.leases (options w).name)) uuid (s.workers w) worker := by
  simp only [ReconciliationWorker.step] at hs
  split at hs
  · cases hs
  · obtain ⟨⟨worker, record⟩, hp, rfl⟩ := Option.map_eq_some_iff.mp hs
    refine ⟨fun n hn => Function.update_of_ne hn _ _, worker, ?_⟩
    dsimp only
    rw [Function.update_self]
    exact perform_spec hp

def Renews (B : LeaseStore R) (s : State R Finding) (n : JSString) (input : RenewInput) : Prop :=
  ∃ record, B.renew (s.leases n) input = .ok (true, record)

theorem Renews.token {n : JSString} {input : RenewInput} (h : Renews B s n input) :
    (B.view (s.leases n)).token = some input.token := by
  obtain ⟨record, hr⟩ := h
  have hv := B.renew_rule _ _ _ _ hr
  unfold LeaseView.renew at hv
  split at hv
  · rename_i hh; exact hh.1.2
  · cases hv

theorem cursor_moves {e : Event Finding} {n : JSString} (h : Inv B options s)
    (hs : step B options s e = some t)
    (hne : (B.view (t.leases n)).cursor ≠ (B.view (s.leases n)).cursor) :
    ∃ session page, s.workers e.worker = .running session (.checkpoint page) ∧
      (options e.worker).name = n ∧
      (B.view (s.leases n)).token = some session.lease.token ∧
      (B.view (s.leases n)).cursor = session.cursor ∧
      (B.view (t.leases n)).cursor = page.cursor ∧
      ScannedFrom s.history e.worker session page ∧
      AllHandled (options e.worker) s.history e.worker session page := by
  cases e with
  | store w uuid =>
    obtain ⟨hother, worker, hp⟩ := store_cases hs
    have hn : n = (options w).name := by
      by_contra hn
      exact hne (by rw [hother n hn])
    subst hn
    have hshown := h.shown w
    have hcur := h.cursor (options w).name w
    show ∃ session page, s.workers w = _ ∧ _
    generalize s.workers w = current at hp hshown hcur ⊢
    cases hp with
    | granted _ _ _ hv => exact absurd hv hne
    | kept _ _ hv _ _ => exact absurd hv hne
    | checkpointed hh _ hv =>
      exact ⟨_, _, rfl, rfl, hh.2, (hcur _ hh.2 rfl).symm, hv, hshown⟩
  | _ =>
    refine absurd (congrArg (fun leases => (B.view (leases n)).cursor) (leases_of_step hs ?_)) hne
    intro w uuid he
    cases he

theorem superseded_keeps {e : Event Finding} {token : JSString}
    (hs : step B options s e = some t) (ht : (s.workers e.worker).token = some token)
    (hne : (B.view (s.leases (options e.worker).name)).token ≠ some token) (n : JSString) :
    B.view (t.leases n) = B.view (s.leases n) := by
  cases e with
  | store w uuid =>
    obtain ⟨hother, worker, hp⟩ := store_cases hs
    by_cases hn : n = (options w).name
    · subst hn
      have ht' : (s.workers w).token = some token := ht
      have hne' : (B.view (s.leases (options w).name)).token ≠ some token := hne
      generalize s.workers w = current at hp ht'
      cases hp with
      | granted => cases ht'
      | checkpointed hh _ _ => exact absurd (hh.2.trans ht') hne'
      | kept _ _ _ _ hv => exact hv token ht' hne'
    · rw [hother n hn]
  | _ =>
    refine congrArg (fun leases => B.view (leases n)) (leases_of_step hs ?_)
    intro w uuid he
    cases he

/-- In every state any calls can reach, with any of the lease stores: the next event moves a
cursor only from the cursor its call scanned to the cursor of the page it handled in full, the
call holding the current token; a superseded call changes no lease; one token at most renews. -/
theorem worker_safe {e : Event Finding} (h : Reachable (step B options) .init s)
    (hs : step B options s e = some t) :
    (∀ n, (B.view (t.leases n)).cursor ≠ (B.view (s.leases n)).cursor →
      ∃ session page, s.workers e.worker = .running session (.checkpoint page) ∧
        (options e.worker).name = n ∧
        (B.view (s.leases n)).token = some session.lease.token ∧
        (B.view (s.leases n)).cursor = session.cursor ∧
        (B.view (t.leases n)).cursor = page.cursor ∧
        ScannedFrom s.history e.worker session page ∧
        (∀ c page', .scanned e.worker session.pages c page' ∈ s.history →
          c = session.cursor ∧ page' = page) ∧
        AllHandled (options e.worker) s.history e.worker session page) ∧
    (∀ token, (s.workers e.worker).token = some token →
      (B.view (s.leases (options e.worker).name)).token ≠ some token →
      ∀ n, B.view (t.leases n) = B.view (s.leases n)) ∧
    ∀ n input input', Renews B s n input → Renews B s n input' → input.token = input'.token := by
  refine ⟨fun n hne => ?_, fun token ht hne n => superseded_keeps hs ht hne n,
    fun n input input' hr hr' => Option.some.inj (hr.token.symm.trans hr'.token)⟩
  obtain ⟨session, page, h₁, h₂, h₃, h₄, h₅, h₆, h₇⟩ := cursor_moves (inv_reachable h) hs hne
  exact ⟨session, page, h₁, h₂, h₃, h₄, h₅, h₆,
    fun c page' hm => (numbered_reachable h).unique _ _ _ _ _ _ hm h₆, h₇⟩

def sharedName (_ : ℕ) : Options ℕ := { name := js "effects", owner := js "a" }

/-- One call acquires the lease, handles the finding of its first page and checkpoints. -/
def checkpointRun : List (Event ℕ) :=
  [.call 0 1000, .store 0 (js "t1"), .proceed 0 1001, .proceed 0 1002, .store 0 (js "u1"),
    .proceed 0 1003, .scanned 0 ⟨[7], some (js "e7")⟩, .take 0 0, .settle 0 0 none, .take 0 0,
    .proceed 0 1004, .store 0 (js "u2"), .proceed 0 1005]

/-- The state in which that call's checkpoint is the next operation of the store. -/
def checkpointState : State MemoryLease ℕ :=
  (run (step MemoryReconciliationLeaseStore.store sharedName) .init checkpointRun).get (by decide)

def checkpointedState : State MemoryLease ℕ :=
  (step MemoryReconciliationLeaseStore.store sharedName checkpointState
    (.store 0 (js "u3"))).get (by decide)

theorem worker_safe_checkpointRun :
    ∃ session page, checkpointState.workers 0 = .running session (.checkpoint page) ∧
      (MemoryLease.view (checkpointedState.leases (js "effects"))).cursor = page.cursor ∧
      AllHandled (sharedName 0) checkpointState.history 0 session page := by
  obtain ⟨session, page, hw, -, -, -, hc, -, -, hh⟩ :=
    (worker_safe (t := checkpointedState) (.of_run _) (Option.some_get _).symm).1
      (js "effects") (by decide)
  exact ⟨session, page, hw, hc, hh⟩

end Nifra.Durable.ReconciliationWorker
