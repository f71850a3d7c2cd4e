import Nifra.WebMcp.PredictionInvariant

/-! # Atomic calls and announced ends

What a call that fails leaves, and how a prediction that was accepted ends, over every run of a
store.
-/

namespace Nifra.WebMcp.Store

variable {S P : Type} {p : Patching S P} {s t : Store S P} {id : JSString}

def outcome (answer : Except JSError (Result S)) : Option Outcome :=
  answer.toOption.map Result.outcome

/-- Without one prediction: those that no longer apply in their place leave with it. -/
structure Without (p : Patching S P) (s t : Store S P) (id : JSString) : Prop where
  active : id ∈ s.order
  state : t.state = s.state
  version : t.version = s.version
  order : t.order = (s.order.erase id).filter fun x =>
    x ∉ (Replay.replay (s.applyStored p) s.state (s.order.erase id)).2
  kept : ∀ x, t.active.get x = if x ∈ t.order then s.active.get x else none
  conflicted : ∀ x, t.conflicted.has x → s.conflicted.has x ∨ x ∈ s.order ∧ x ∉ t.order

theorem without_snapshot (hs : s.Tidy) (hid : id ∈ s.order) (ht : s.Dropped t [id])
    (horder : t.order = s.order.erase id) : s.Without p (t.snapshot p).1 id := by
  obtain ⟨hu, -⟩ := dropped_snapshot (p := p) (ht.nodup hs.nodup)
  have hreplay : t.invalid p =
      (Replay.replay (s.applyStored p) s.state (s.order.erase id)).2 := by
    rw [invalid, horder, ht.state]
    congr 1
    refine Replay.replay_congr fun x hx state => ht.applyStored ?_ state
    rw [List.mem_singleton]
    exact (hs.nodup.mem_erase_iff.mp hx).1
  have horder' (x : JSString) : x ∈ (t.snapshot p).1.order ↔
      (x ∈ s.order ∧ x ≠ id) ∧ x ∉ t.invalid p := by
    rw [hu.mem_order, ht.mem_order, List.mem_singleton]
  constructor
  · exact hid
  · exact hu.state.trans ht.state
  · exact hu.version.trans ht.version
  · rw [hu.order, horder, hreplay]
  · intro x
    rw [hu.active, ht.active]
    simp only [List.mem_singleton]
    by_cases hx : x ∈ (t.snapshot p).1.order
    · rw [if_pos hx, if_neg ((horder' x).mp hx).2, if_neg ((horder' x).mp hx).1.2]
    · rw [if_neg hx]
      split_ifs with hinvalid hxid
      · rfl
      · rfl
      · exact hs.get_none fun hmem => hx ((horder' x).mpr ⟨⟨hmem, hxid⟩, hinvalid⟩)
  · intro x hx
    rw [horder']
    rcases hu.conflicted x hx with hx | hx
    · refine (ht.conflicted x hx).imp_right fun hmem => ?_
      rw [List.mem_singleton] at hmem
      exact ⟨hmem ▸ hid, fun hall => hall.1.2 hmem⟩
    · exact Or.inr ⟨(ht.mem_order.mp (invalid_subset hx)).1, fun hall => hall.2 hx⟩

theorem Without.emit (h : s.Without p t id) (type : EventType) (x : JSString)
    (snapshot : Snapshot S) : s.Without p (t.emit type x snapshot) id :=
  ⟨h.active, h.state, h.version, h.order, h.kept, h.conflicted⟩

structure Atomic (p : Patching S P) (s : Store S P) : Prop where
  nodup : s.order.Nodup
  tracked : ∀ id, id ∈ s.order ↔ s.active.has id
  fold : ∃ state, s.order.foldlM (s.applyStored p) s.state = some state ∧
    s.snapshot p = (s, ⟨state, s.version, s.version, s.order⟩)
  predict : ∀ id prediction now,
    outcome (s.predict p id prediction now).2 ≠ some .predicted →
      (s.predict p id prediction now).1 = s
  commit : ∀ id next now reconciliation,
    match outcome (s.commit p id next now reconciliation).2 with
    | none => s.conflicted.has id = false → (s.commit p id next now reconciliation).1 = s
    | some .missing => (s.commit p id next now reconciliation).1 = s
    | some .expired => s.Without p (s.commit p id next now reconciliation).1 id
    | some .conflicted =>
      s.Without p (s.commit p id next now reconciliation).1 id ∨ s.conflicted.has id ∧
        (s.commit p id next now reconciliation).1 =
          { s with conflicted := s.conflicted.delete id }
    | some result => result = .committed
  adopt : ∀ id next, outcome (s.adopt p id next).2 ≠ some .committed → (s.adopt p id next).1 = s

theorem outcome_adopt (id : JSString) (next : Authoritative S) :
    outcome (s.adopt p id next).2 = none ∧ (s.adopt p id next).1 = s ∨
      outcome (s.adopt p id next).2 = some .committed := by
  unfold Store.adopt
  split
  · exact Or.inl ⟨rfl, rfl⟩
  · exact Or.inr rfl

theorem Consistent.commit_spec (h : s.Consistent p) (id : JSString) (next : Authoritative S)
    (now : ℚ) (reconciliation : Option ReconciliationMode) :
    (outcome (s.commit p id next now reconciliation).2 = none ∧
      (s.conflicted.has id ∨ (s.commit p id next now reconciliation).1 = s)) ∨
    outcome (s.commit p id next now reconciliation).2 = some .committed ∨
    (outcome (s.commit p id next now reconciliation).2 = some .missing ∧
      (s.commit p id next now reconciliation).1 = s) ∨
    (outcome (s.commit p id next now reconciliation).2 = some .expired ∧
      s.Without p (s.commit p id next now reconciliation).1 id) ∨
    (outcome (s.commit p id next now reconciliation).2 = some .conflicted ∧
      (s.Without p (s.commit p id next now reconciliation).1 id ∨ s.conflicted.has id ∧
        (s.commit p id next now reconciliation).1 =
          { s with conflicted := s.conflicted.delete id })) := by
  obtain ⟨state, hstate⟩ := h.replays
  have hsnapshot := Replays.snapshot hstate
  have hremoved := dropped_removeActive id h.nodup
  have hdropped := dropped_drop id h.nodup
  simp only [Store.commit]
  split
  · exact Or.inl ⟨rfl, Or.inr rfl⟩
  · simp only [hsnapshot]
    cases hstored : s.active.get id with
    | none =>
      simp only
      split_ifs with hconf haccept
      · rcases outcome_adopt (s := { s with conflicted := s.conflicted.delete id }) (p := p) id next
          with ⟨hnone, -⟩ | hcommitted
        · exact Or.inl ⟨hnone, Or.inl hconf⟩
        · exact Or.inr (Or.inl hcommitted)
      · exact Or.inr (Or.inr (Or.inr (Or.inr ⟨rfl, Or.inr ⟨hconf, rfl⟩⟩)))
      · exact Or.inr (Or.inr (Or.inl ⟨rfl, rfl⟩))
    | some stored =>
      have hid : id ∈ s.order := (h.tracked id).mpr (by simp [InsertionMap.has, hstored])
      simp only
      split_ifs with hexpired hstale
      · have hwithout := without_snapshot (p := p) h.toTidy hid hremoved rfl
        exact Or.inr (Or.inr (Or.inr (Or.inl ⟨rfl, hwithout.emit _ _ _⟩)))
      · have hwithout := without_snapshot (p := p) h.toTidy hid hdropped rfl
        exact Or.inr (Or.inr (Or.inr (Or.inr ⟨rfl, Or.inl (hwithout.emit _ _ _)⟩)))
      · rcases outcome_adopt (s := s) (p := p) id next with ⟨hnone, hsame⟩ | hcommitted
        · exact Or.inl ⟨hnone, Or.inr hsame⟩
        · exact Or.inr (Or.inl hcommitted)

theorem Consistent.atomic (h : s.Consistent p) : s.Atomic p := by
  obtain ⟨state, hstate⟩ := h.replays
  have hsnapshot := Replays.snapshot hstate
  have hlisted : s.order.filter s.active.has = s.order :=
    List.filter_eq_self.mpr fun id hid => (h.tracked id).mp hid
  constructor
  case nodup => exact h.nodup
  case tracked => exact h.tracked
  case fold => exact ⟨state, hstate, hlisted ▸ hsnapshot⟩
  case predict =>
    intro id prediction now hout
    rcases h.predict_spec id prediction now with ⟨hsame, -⟩ | ⟨view, -, -, -, heq⟩
    · exact hsame
    · rw [heq] at hout
      exact absurd rfl hout
  case commit =>
    intro id next now reconciliation
    rcases h.commit_spec id next now reconciliation with
      ⟨hout, hsame⟩ | hout | ⟨hout, hsame⟩ | ⟨hout, hwithout⟩ | ⟨hout, hleft⟩
    · rw [hout]
      exact fun hconf => hsame.resolve_left (Bool.eq_false_iff.mp hconf)
    · rw [hout]
    · rw [hout]
      exact hsame
    · rw [hout]
      exact hwithout
    · rw [hout]
      exact hleft
  case adopt =>
    intro id next hout
    rcases outcome_adopt (s := s) (p := p) id next with ⟨-, hsame⟩ | hcommitted
    · exact hsame
    · exact absurd hcommitted hout

theorem Ended.marks {marks : List (Option EventType)} (h : Ended marks) (hnone : none ∉ marks) :
    (∃ type, type ≠ .predicted ∧ marks = [some type]) ∨
      marks = [some .committed, some .conflicted] := by
  cases h with
  | committed => exact Or.inl ⟨.committed, nofun, rfl⟩
  | rolledBack => exact Or.inl ⟨.rolledBack, nofun, rfl⟩
  | expired => exact Or.inl ⟨.expired, nofun, rfl⟩
  | conflicted => exact Or.inl ⟨.conflicted, nofun, rfl⟩
  | dropped => exact absurd (List.mem_singleton_self none) hnone
  | reconciled => exact Or.inr rfl
  | reconciledDrop => exact absurd (by simp) hnone

theorem Consistent.reconciled (h : s.Consistent p) {next : Authoritative S} {now : ℚ}
    {reconciliation : Option ReconciliationMode} (hid : id ∉ s.order)
    (hmode : reconciliation ≠ some .acceptServerState) :
    (s.commit p id next now reconciliation).1.log = s.log := by
  obtain ⟨state, hstate⟩ := h.replays
  simp only [Store.commit]
  split
  · rfl
  · simp only [Replays.snapshot hstate, h.get_none hid]
    split_ifs with hconf
    · rfl
    · rfl

theorem consistent_run {initial : Authoritative S} {calls : List (Call S P)}
    (h₀ : create initial = .ok s) (h : Runs.run (step p) s calls = some t) : t.Consistent p :=
  Runs.run_invariant (fun _ _ _ hs ht => hs.step ht) h (.create h₀)

/-- Over every run from an initial state. -/
theorem predictions_atomic (p : Patching S P) {initial : Authoritative S}
    {calls : List (Call S P)} (h₀ : create initial = .ok s)
    (h : Runs.run (step p) s calls = some t) : t.Atomic p :=
  (consistent_run h₀ h).atomic

def cartState : Authoritative JSON.Value := ⟨some (.object [(js "items", .array [])]), js "cart-1"⟩

def cart : Store JSON.Value (List PatchOperation) :=
  ⟨.object [(js "items", .array [])], js "cart-1", ∅, ∅, [], []⟩

theorem create_cart : create cartState = .ok cart := rfl

def addItem (sku : String) (expiresAt : Option ℚ) : Prediction (List PatchOperation) :=
  ⟨js "cart-1", [.add (js "/items/-") (.json (.string (js sku)))], expiresAt⟩

def twoItems : List (Call JSON.Value (List PatchOperation)) :=
  [.predict (js "a") (addItem "a" (some 10)) 0, .predict (js "b") (addItem "b" none) 0]

theorem twoItems_runs : (Runs.run (step jsonPatching) cart twoItems).isSome := rfl

theorem predictions_atomic_twoItems :
    ((Runs.run (step jsonPatching) cart twoItems).get twoItems_runs).Atomic jsonPatching :=
  predictions_atomic jsonPatching create_cart (Option.some_get twoItems_runs).symm

/-- A commit that answers that its prediction has expired removes it. -/
theorem removal_twoItems : ¬ ∀ (calls : List (Call JSON.Value (List PatchOperation))) t,
    Runs.run (step jsonPatching) cart calls = some t → ∀ id next now reconciliation,
      outcome (t.commit jsonPatching id next now reconciliation).2 ≠ some .committed →
        (t.commit jsonPatching id next now reconciliation).1.state = t.state ∧
        (t.commit jsonPatching id next now reconciliation).1.version = t.version ∧
        (t.commit jsonPatching id next now reconciliation).1.active = t.active ∧
        (t.commit jsonPatching id next now reconciliation).1.order = t.order ∧
        (t.commit jsonPatching id next now reconciliation).1.conflicted = t.conflicted := by
  intro h
  have hsame := h twoItems _ (Option.some_get twoItems_runs).symm (js "a")
    ⟨none, js "cart-2"⟩ 20 none (by decide +kernel)
  have horder := hsame.2.2.2.1
  revert horder
  decide +kernel

def terminals (id : JSString) (log : List (Entry S)) : ℕ :=
  log.countP fun entry => subject entry = id ∧ mark entry ≠ none ∧ mark entry ≠ some .predicted

end Nifra.WebMcp.Store
