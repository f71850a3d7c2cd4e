import Mathlib.Data.List.Chain
import Nifra.Invalidation.Pipeline

/-! # Purges come before clients are told

A stage that is needed by a later one has succeeded before it, in this attempt or in an earlier one,
since a retry starts at the first stage that failed.
-/

namespace Nifra.Invalidation

namespace Stage

def needs : Stage → List Stage
  | data => []
  | pages => [data]
  | publish | cdn => [data, pages]

end Stage

def Entry.stage : Entry → Stage
  | .call (.invalidateData _ _) => .data
  | .call (.deletePage _) | .call (.invalidatePages _) => .pages
  | .call (.publish _) => .publish
  | .call (.purge _ _) => .cdn
  | .report ended => ended.stage

namespace Settling
variable {s : Settling} {history after : List Entry} {report : StageReport} {stage : Stage}
  {reports : List StageReport}

def Cleared (s : Settling) (history : List Entry) (stage : Stage) : Prop :=
  s.hasWork stage → ∃ report, Entry.report report ∈ history ∧ report.stage = stage ∧ report.ok

def Ordered (s : Settling) (history : List Entry) : Prop :=
  ∀ before entry after, history = before ++ entry :: after →
    ∀ stage ∈ entry.stage.needs, s.Cleared before stage

theorem Cleared.mono (h : s.Cleared history stage) (hsub : ∀ entry ∈ history, entry ∈ after) :
    s.Cleared after stage := by
  intro hwork
  obtain ⟨report, hmem, hstage, hok⟩ := h hwork
  exact ⟨report, hsub _ hmem, hstage, hok⟩

theorem Ordered.append (h : s.Ordered history) {entry : Entry}
    (hneeds : ∀ stage ∈ entry.stage.needs, s.Cleared history stage) :
    s.Ordered (history ++ [entry]) := by
  intro before other rest heq
  rcases List.eq_nil_or_concat rest with rfl | ⟨rest, last, rfl⟩
  · obtain ⟨rfl, hlast⟩ := List.append_inj' heq rfl
    obtain rfl := (List.cons.inj hlast).1
    exact hneeds
  · rw [List.concat_eq_append, ← List.cons_append, ← List.append_assoc] at heq
    exact h before other rest (List.append_inj' heq rfl).1

/-- A stage that runs: its entries, all of the stage, and its report. -/
structure Ran (s : Settling) (stage : Stage) (history after : List Entry) (report : StageReport) :
    Prop where
  kept : ∀ entry ∈ history, entry ∈ after
  ordered : s.Ordered history → (∀ other ∈ stage.needs, s.Cleared history other) → s.Ordered after
  stage : report.stage = stage

theorem Ran.append {mid : List Entry} (h : s.Ran stage history mid report) {entry : Entry}
    (hentry : entry.stage = stage) : s.Ran stage history (mid ++ [entry]) report where
  kept other hother := List.mem_append_left _ (h.kept other hother)
  ordered hordered hneeds := by
    refine (h.ordered hordered hneeds).append fun other hother => ?_
    rw [hentry] at hother
    exact (hneeds other hother).mono h.kept
  stage := h.stage

theorem Ran.trans {mid : List Entry} {first : StageReport} (h : s.Ran stage history mid first)
    (h' : s.Ran stage mid after report) : s.Ran stage history after report where
  kept entry hentry := h'.kept entry (h.kept entry hentry)
  ordered hordered hneeds :=
    h'.ordered (h.ordered hordered hneeds) fun other hother => (hneeds other hother).mono h.kept
  stage := h'.stage

theorem ran_self (history : List Entry) (hreport : report.stage = stage) :
    s.Ran stage history history report := ⟨fun _ h => h, fun h _ => h, hreport⟩

theorem ran_runCalls {calls : List (Option Call)} {outcome : Option CdnPurgeOutcome}
    (hcalls : ∀ call, some call ∈ calls → Entry.stage (.call call) = stage) :
    s.Ran stage history (s.runCalls stage history calls outcome).1
      (s.runCalls stage history calls outcome).2 := by
  induction calls generalizing history outcome with
  | nil =>
    cases outcome with
    | none => exact ran_self history rfl
    | some outcome =>
      refine ran_self history ?_
      rw [runCalls]
      split
      · next heq =>
        rw [heq, Stage.purged]
        split <;> rfl
      · rfl
  | cons call calls ih =>
    cases call with
    | none => exact ran_self history rfl
    | some call =>
      have hstage := hcalls call List.mem_cons_self
      rw [runCalls]
      split
      · have hnothing : s.Ran stage history history stage.rejected := ran_self history rfl
        exact hnothing.append hstage
      · have hnothing : s.Ran stage history history stage.done := ran_self history rfl
        exact (hnothing.append hstage).trans
          (ih fun other hother => hcalls other (List.mem_cons_of_mem _ hother))

theorem mem_deletion {path : JSString} {call : Call} (h : some call ∈ s.deletion path) :
    Entry.stage (.call call) = .pages := by
  unfold deletion at h
  split at h
  · cases h
  · split at h
    · simp at h
    · cases h
    · obtain rfl := Option.some.inj (List.mem_singleton.mp h)
      rfl

theorem work_stage {calls : List (Option Call)} (h : s.work stage = some (.calls calls)) :
    ∀ call, some call ∈ calls → Entry.stage (.call call) = stage := by
  intro call hcall
  cases stage with
  | data =>
    simp only [work] at h
    split at h
    · cases h
    · split at h
      · cases h
      · obtain rfl := Work.calls.inj (Option.some.inj h)
        obtain ⟨cache, -, hcall⟩ := List.mem_flatMap.mp hcall
        obtain ⟨tag, -, heq⟩ := List.mem_map.mp hcall
        obtain rfl := Option.some.inj heq
        rfl
  | pages =>
    simp only [work] at h
    split at h
    · cases h
    · split at h
      · cases h
      · split at h
        · cases h
        · obtain rfl := Work.calls.inj (Option.some.inj h)
          rcases List.mem_append.mp hcall with hcall | hcall
          · obtain ⟨path, -, hcall⟩ := List.mem_flatMap.mp hcall
            exact mem_deletion hcall
          · obtain ⟨tag, -, heq⟩ := List.mem_map.mp hcall
            obtain rfl := Option.some.inj heq
            rfl
  | publish =>
    simp only [work] at h
    split at h
    · cases h
    · obtain rfl := Work.calls.inj (Option.some.inj h)
      obtain rfl := Option.some.inj (List.mem_singleton.mp hcall)
      rfl
  | cdn =>
    simp only [work] at h
    split at h
    · cases h
    · obtain rfl := Work.calls.inj (Option.some.inj h)
      obtain rfl := Option.some.inj (List.mem_singleton.mp hcall)
      rfl

theorem refuse_report (h : s.work stage = some (.refuse report)) :
    report.stage = stage ∧ report.ok = false := by
  cases stage with
  | data =>
    simp only [work] at h
    split at h
    · cases h
    · split at h <;> cases h
  | pages =>
    simp only [work] at h
    split at h
    · cases h
    · split at h
      · cases h
      · split at h
        · rw [← Work.refuse.inj (Option.some.inj h)]
          exact ⟨rfl, rfl⟩
        · cases h
  | publish =>
    simp only [work] at h
    split at h <;> cases h
  | cdn =>
    simp only [work] at h
    split at h <;> cases h

theorem ran_runStage (h : s.runStage stage history = some (after, report)) :
    s.Ran stage history after report ∧ Entry.report report ∈ after := by
  obtain ⟨work, hwork, heq⟩ := Option.map_eq_some_iff.mp h
  cases work with
  | calls calls =>
    obtain ⟨rfl, rfl⟩ := Prod.mk.inj heq
    have hran : s.Ran stage history (s.runCalls stage history calls none).1
        (s.runCalls stage history calls none).2 := ran_runCalls (work_stage hwork)
    exact ⟨hran.append hran.stage, List.mem_append_right _ (List.mem_singleton_self _)⟩
  | refuse refused =>
    obtain ⟨rfl, rfl⟩ := Prod.mk.inj heq
    have hran : s.Ran stage history _ _ := ran_self history (refuse_report hwork).1
    exact ⟨hran.append hran.stage, List.mem_append_right _ (List.mem_singleton_self _)⟩

theorem runStages_cons (s : Settling) (stage : Stage) (rest : List Stage) (history : List Entry) :
    (s.hasWork stage = false ∧
      s.runStages (stage :: rest) history = s.runStages rest history) ∨
    ∃ mid report, s.runStage stage history = some (mid, report) ∧ s.hasWork stage ∧
      (report.ok = false ∧ (stage = .data ∨ stage = .pages) ∧
          s.runStages (stage :: rest) history = (mid, [report]) ∨
        ¬ (report.ok = false ∧ (stage = .data ∨ stage = .pages)) ∧
          s.runStages (stage :: rest) history =
            ((s.runStages rest mid).1, report :: (s.runStages rest mid).2)) := by
  cases hwork : s.work stage with
  | none =>
    have hnone : s.runStage stage history = none := by rw [runStage, hwork, Option.map_none]
    refine Or.inl ⟨by rw [hasWork, hwork]; rfl, ?_⟩
    rw [runStages, hnone]
  | some work =>
    obtain ⟨⟨mid, report⟩, hrun⟩ : ∃ next, s.runStage stage history = some next := by
      rw [runStage, hwork, Option.map_some]
      exact ⟨_, rfl⟩
    refine Or.inr ⟨mid, report, hrun, by rw [hasWork, hwork]; rfl, ?_⟩
    rw [runStages, hrun]
    dsimp only
    by_cases hfailed : report.ok = false ∧ (stage = .data ∨ stage = .pages)
    · rw [if_pos hfailed]
      exact Or.inl ⟨hfailed.1, hfailed.2, rfl⟩
    · rw [if_neg hfailed]
      exact Or.inr ⟨hfailed, rfl⟩

theorem runStages_kept {stages : List Stage} :
    ∀ entry ∈ history, entry ∈ (s.runStages stages history).1 := by
  induction stages generalizing history with
  | nil => exact fun _ h => h
  | cons stage rest ih =>
    intro entry hentry
    rcases runStages_cons s stage rest history with
      ⟨-, heq⟩ | ⟨mid, report, hrun, -, ⟨-, -, heq⟩ | ⟨-, heq⟩⟩
    · rw [heq]
      exact ih entry hentry
    · rw [heq]
      exact (ran_runStage hrun).1.kept entry hentry
    · rw [heq]
      exact ih entry ((ran_runStage hrun).1.kept entry hentry)

theorem cleared_of_ran (hrun : s.runStage stage history = some (after, report))
    (hok : report.ok) : s.Cleared after stage := by
  obtain ⟨hran, hmem⟩ := ran_runStage hrun
  exact fun _ => ⟨report, hmem, hran.stage, hok⟩

def Ready (s : Settling) (stages : List Stage) (history : List Entry) : Prop :=
  ∀ front stage back, stages = front ++ stage :: back →
    ∀ other ∈ stage.needs, other ∈ front ∨ s.Cleared history other

theorem Ready.tail {rest : List Stage} (h : s.Ready (stage :: rest) history)
    (hsub : ∀ entry ∈ history, entry ∈ after)
    (hcleared : stage = .data ∨ stage = .pages → s.Cleared after stage) : s.Ready rest after := by
  intro front next back heq other hother
  rcases h (stage :: front) next back (by rw [heq, List.cons_append]) other hother with hmem | hold
  · rcases List.mem_cons.mp hmem with rfl | hmem
    · refine Or.inr (hcleared ?_)
      cases next <;> simp only [Stage.needs, List.mem_cons, List.not_mem_nil, or_false] at hother
      · exact Or.inl hother
      · exact hother
      · exact hother
    · exact Or.inl hmem
  · exact Or.inr (hold.mono hsub)

theorem not_hasWork_cleared (h : s.hasWork stage = false) : s.Cleared history stage := by
  intro hwork
  rw [h] at hwork
  cases hwork

theorem ordered_runStages {stages : List Stage} (h : s.Ready stages history)
    (hordered : s.Ordered history) : s.Ordered (s.runStages stages history).1 := by
  induction stages generalizing history with
  | nil => exact hordered
  | cons stage rest ih =>
    have hneeds : ∀ other ∈ stage.needs, s.Cleared history other := fun other hother =>
      (h [] stage rest rfl other hother).resolve_left nofun
    rcases runStages_cons s stage rest history with
      ⟨hwork, heq⟩ | ⟨mid, report, hrun, -, ⟨-, -, heq⟩ | ⟨hfailed, heq⟩⟩
    · rw [heq]
      exact ih (h.tail (fun _ h => h) fun _ => not_hasWork_cleared hwork) hordered
    · rw [heq]
      exact (ran_runStage hrun).1.ordered hordered hneeds
    · rw [heq]
      have hran := (ran_runStage hrun).1
      refine ih (h.tail hran.kept fun hcache => ?_) (hran.ordered hordered hneeds)
      refine cleared_of_ran hrun ?_
      by_contra hok
      exact hfailed ⟨Bool.eq_false_iff.mpr hok, hcache⟩

theorem cleared_runStages {stages : List Stage} {failed : StageReport}
    (h : firstFailed (s.runStages stages history).2 = some failed) :
    ∃ front back, stages = front ++ failed.stage :: back ∧
      ∀ other ∈ front, s.Cleared (s.runStages stages history).1 other := by
  induction stages generalizing history with
  | nil => cases h
  | cons stage rest ih =>
    rcases runStages_cons s stage rest history with
      ⟨hwork, heq⟩ | ⟨mid, report, hrun, -, ⟨hfailed, -, heq⟩ | ⟨-, heq⟩⟩
    · rw [heq] at h ⊢
      obtain ⟨front, back, hstages, hcleared⟩ := ih h
      refine ⟨stage :: front, back, by rw [hstages, List.cons_append], ?_⟩
      rw [List.forall_mem_cons]
      exact ⟨not_hasWork_cleared hwork, hcleared⟩
    · rw [heq] at h ⊢
      have hfirst : firstFailed [report] = some report := by simp [firstFailed, hfailed]
      obtain rfl := Option.some.inj (hfirst.symm.trans h)
      exact ⟨[], rest, by rw [(ran_runStage hrun).1.stage, List.nil_append], nofun⟩
    · rw [heq] at h ⊢
      cases hok : report.ok with
      | false =>
        have hfirst : firstFailed (report :: (s.runStages rest mid).2) = some report := by
          simp [firstFailed, hok]
        obtain rfl := Option.some.inj (hfirst.symm.trans h)
        exact ⟨[], rest, by rw [(ran_runStage hrun).1.stage, List.nil_append], nofun⟩
      | true =>
        have hrest : firstFailed (s.runStages rest mid).2 = some failed := by
          simpa [firstFailed, hok] using h
        obtain ⟨front, back, hstages, hcleared⟩ := ih hrest
        refine ⟨stage :: front, back, by rw [hstages, List.cons_append], ?_⟩
        rw [List.forall_mem_cons]
        exact ⟨(cleared_of_ran hrun hok).mono runStages_kept, hcleared⟩

/-- The stages with work run one after the other, all of them or up to a cache stage that failed. -/
def Complete (s : Settling) (stages : List Stage) (reports : List StageReport) : Prop :=
  reports.map StageReport.stage <+: stages.filter s.hasWork ∧
    (reports.map StageReport.stage = stages.filter s.hasWork ∨
      ∃ last ∈ reports.getLast?, last.ok = false ∧ (last.stage = .data ∨ last.stage = .pages))

theorem complete_runStages (s : Settling) (stages : List Stage) (history : List Entry) :
    s.Complete stages (s.runStages stages history).2 := by
  induction stages generalizing history with
  | nil => exact ⟨List.nil_prefix, Or.inl rfl⟩
  | cons stage rest ih =>
    rcases runStages_cons s stage rest history with
      ⟨hwork, heq⟩ | ⟨mid, report, hrun, hwork, ⟨hfailed, hcache, heq⟩ | ⟨-, heq⟩⟩
    · rw [heq, Complete, List.filter_cons_of_neg (by rw [hwork]; exact Bool.false_ne_true)]
      exact ih history
    · have hstage := (ran_runStage hrun).1.stage
      rw [heq, Complete, List.filter_cons_of_pos hwork, List.map_cons, List.map_nil, hstage]
      refine ⟨List.prefix_cons_inj stage |>.mpr List.nil_prefix, Or.inr ⟨report, rfl, hfailed, ?_⟩⟩
      rw [hstage]
      exact hcache
    · have hstage := (ran_runStage hrun).1.stage
      obtain ⟨hstart, hall⟩ := ih mid
      rw [heq, Complete, List.filter_cons_of_pos hwork, List.map_cons, hstage]
      refine ⟨(List.prefix_cons_inj stage).mpr hstart, ?_⟩
      rcases hall with hall | ⟨last, hlast, hfailed⟩
      · exact Or.inl (by rw [hall])
      · refine Or.inr ⟨last, ?_, hfailed⟩
        rw [Option.mem_def] at hlast ⊢
        rw [List.getLast?_cons, hlast]
        rfl

/-- A success is reported after the calls of its stage, none of which was rejected. -/
def Truthful (s : Settling) (history : List Entry) : Prop :=
  ∀ before report after, history = before ++ .report report :: after → report.ok →
    ∃ start made, before = start ++ made.map Entry.call ∧
      s.work report.stage = some (.calls (made.map some)) ∧
      ∀ front call rest, made = front ++ call :: rest →
        (s.answers (start ++ front.map Entry.call) call).isSome

theorem runCalls_made (s : Settling) (stage : Stage) (history : List Entry)
    (calls : List (Option Call)) (outcome : Option CdnPurgeOutcome) :
    ∃ made, (s.runCalls stage history calls outcome).1 = history ++ made.map Entry.call ∧
      ((s.runCalls stage history calls outcome).2.ok → calls = made.map some ∧
        ∀ front call rest, made = front ++ call :: rest →
          (s.answers (history ++ front.map Entry.call) call).isSome) := by
  induction calls generalizing history outcome with
  | nil =>
    refine ⟨[], ?_, fun _ => ⟨rfl, ?_⟩⟩
    · cases outcome <;> simp [runCalls]
    · intro front call rest heq
      cases front <;> cases heq
  | cons call calls ih =>
    cases call with
    | none => exact ⟨[], by simp [runCalls], nofun⟩
    | some call =>
      rw [runCalls]
      cases hanswer : s.answers history call with
      | none => exact ⟨[call], rfl, nofun⟩
      | some outcome =>
        obtain ⟨made, hafter, hok⟩ := ih (history ++ [.call call]) (some outcome)
        refine ⟨call :: made, ?_, fun h => ?_⟩
        · simpa using hafter
        · obtain ⟨rfl, hanswered⟩ := hok h
          refine ⟨rfl, ?_⟩
          intro front other rest heq
          rcases List.cons_eq_append_iff.mp heq with ⟨rfl, heq⟩ | ⟨front, rfl, rfl⟩
          · obtain ⟨rfl, -⟩ := List.cons.inj heq
            simp [hanswer]
          · simpa using hanswered front other rest rfl

theorem Truthful.append_calls (h : s.Truthful history) (calls : List Call) :
    s.Truthful (history ++ calls.map Entry.call) := by
  intro before report after heq hok
  rcases List.append_eq_append_iff.mp heq with ⟨more, -, hmore⟩ | ⟨more, rfl, hmore⟩
  · have hmem : Entry.report report ∈ calls.map Entry.call := by
      rw [hmore]
      exact List.mem_append_right _ List.mem_cons_self
    obtain ⟨call, -, hcall⟩ := List.mem_map.mp hmem
    cases hcall
  · cases more with
    | nil =>
      cases calls with
      | nil => cases hmore
      | cons call calls => exact nomatch (List.cons.inj hmore).1
    | cons entry more =>
      obtain ⟨rfl, -⟩ := List.cons.inj hmore
      exact h before report more rfl hok

theorem Truthful.append_report (h : s.Truthful history)
    (hreport : report.ok → ∃ start made, history = start ++ made.map Entry.call ∧
      s.work report.stage = some (.calls (made.map some)) ∧
      ∀ front call rest, made = front ++ call :: rest →
        (s.answers (start ++ front.map Entry.call) call).isSome) :
    s.Truthful (history ++ [.report report]) := by
  intro before other rest heq hok
  rcases List.eq_nil_or_concat rest with rfl | ⟨rest, last, rfl⟩
  · obtain ⟨rfl, hlast⟩ := List.append_inj' heq rfl
    obtain rfl := Entry.report.inj (List.cons.inj hlast).1
    exact hreport hok
  · rw [List.concat_eq_append, ← List.cons_append, ← List.append_assoc] at heq
    exact h before other rest (List.append_inj' heq rfl).1 hok

theorem truthful_runStage (h : s.Truthful history)
    (hrun : s.runStage stage history = some (after, report)) : s.Truthful after := by
  have hstage := (ran_runStage hrun).1.stage
  obtain ⟨work, hwork, heq⟩ := Option.map_eq_some_iff.mp hrun
  cases work with
  | calls calls =>
    obtain ⟨rfl, rfl⟩ := Prod.mk.inj heq
    obtain ⟨made, hafter, hok⟩ := runCalls_made s stage history calls none
    rw [hafter]
    refine (h.append_calls made).append_report fun hreport => ⟨history, made, rfl, ?_, ?_⟩
    · rw [hstage, hwork, (hok hreport).1]
    · exact (hok hreport).2
  | refuse refused =>
    obtain ⟨rfl, rfl⟩ := Prod.mk.inj heq
    exact h.append_report fun hok => absurd hok (by simp [(refuse_report hwork).2])

theorem truthful_runStages {stages : List Stage} (h : s.Truthful history) :
    s.Truthful (s.runStages stages history).1 := by
  induction stages generalizing history with
  | nil => exact h
  | cons stage rest ih =>
    rcases runStages_cons s stage rest history with
      ⟨-, heq⟩ | ⟨mid, report, hrun, -, ⟨-, -, heq⟩ | ⟨-, heq⟩⟩
    · rw [heq]
      exact ih h
    · rw [heq]
      exact truthful_runStage h hrun
    · rw [heq]
      exact ih (truthful_runStage h hrun)

theorem needs_before {front back : List Stage} (h : order = front ++ stage :: back) :
    ∀ other ∈ stage.needs, other ∈ front := by
  rcases front with _ | ⟨first, _ | ⟨second, _ | ⟨third, _ | ⟨fourth, front⟩⟩⟩⟩ <;>
    simp only [order, List.nil_append, List.cons_append, List.cons.injEq] at h
  · obtain ⟨rfl, -⟩ := h
    exact nofun
  · obtain ⟨rfl, rfl, -⟩ := h
    exact fun _ hother => hother
  · obtain ⟨rfl, rfl, rfl, -⟩ := h
    exact fun _ hother => hother
  · obtain ⟨rfl, rfl, rfl, rfl, -⟩ := h
    exact List.subset_append_left [Stage.data, Stage.pages] [Stage.publish]
  · exact absurd h.2.2.2.2 (by simp)

/-- An attempt may start at a stage: those before it are cleared. -/
structure Resumable (s : Settling) (history : List Entry) (first : Stage) : Prop where
  ordered : s.Ordered history
  truthful : s.Truthful history
  cleared : ∃ front, order = front ++ stagesFrom first ∧ ∀ other ∈ front, s.Cleared history other

theorem stagesFrom_of_order {front back : List Stage} (h : order = front ++ stage :: back) :
    stagesFrom stage = stage :: back := by
  rcases front with _ | ⟨first, _ | ⟨second, _ | ⟨third, _ | ⟨fourth, front⟩⟩⟩⟩ <;>
    simp only [order, List.nil_append, List.cons_append, List.cons.injEq] at h
  · obtain ⟨rfl, rfl⟩ := h
    rfl
  · obtain ⟨-, rfl, rfl⟩ := h
    rfl
  · obtain ⟨-, -, rfl, rfl⟩ := h
    rfl
  · obtain ⟨-, -, -, rfl, rfl⟩ := h
    rfl
  · exact absurd h.2.2.2.2 (by simp)

theorem Resumable.ready {first : Stage} (h : s.Resumable history first) :
    s.Ready (stagesFrom first) history := by
  obtain ⟨cleared, horder, hcleared⟩ := h.cleared
  intro front stage back heq other hother
  rw [heq, ← List.append_assoc] at horder
  rcases List.mem_append.mp (needs_before horder other hother) with hmem | hmem
  · exact Or.inr (hcleared other hmem)
  · exact Or.inl hmem

theorem Resumable.next {first : Stage} {failed : StageReport} (h : s.Resumable history first)
    (hfailed : firstFailed (s.runInvalidation history first).2.reports = some failed) :
    s.Resumable (s.runInvalidation history first).1 failed.stage where
  ordered := ordered_runStages h.ready h.ordered
  truthful := truthful_runStages h.truthful
  cleared := by
    obtain ⟨cleared, horder, hcleared⟩ := h.cleared
    obtain ⟨front, back, heq, hfront⟩ := cleared_runStages hfailed
    rw [heq, ← List.append_assoc] at horder
    refine ⟨cleared ++ front, by rw [stagesFrom_of_order horder]; exact horder, ?_⟩
    rw [List.forall_mem_append]
    exact ⟨fun other hother => (hcleared other hother).mono runStages_kept, hfront⟩

/-- An attempt starts at the stage at which the one before it failed first. -/
def Resumes (last next : Attempt) : Prop :=
  ∃ failed ∈ firstFailed last.reports, next.first = failed.stage

structure Closed (s : Settling) (settled : Settled) : Prop where
  ordered : s.Ordered settled.history
  truthful : s.Truthful settled.history
  resumed : settled.attempts.IsChain Resumes
  complete : ∀ attempt ∈ settled.attempts, s.Complete (stagesFrom attempt.first) attempt.reports
  errors : ∃ last ∈ settled.attempts.getLast?,
    settled.errors = if (s.reportOf last).ok then [] else [s.reportOf last]

structure Retrying (s : Settling) (history : List Entry) (attempts : List Attempt) (last : Attempt)
    (failed : StageReport) : Prop where
  resumable : s.Resumable history failed.stage
  resumed : (attempts ++ [last]).IsChain Resumes
  complete : ∀ attempt ∈ attempts ++ [last], s.Complete (stagesFrom attempt.first) attempt.reports
  failed : firstFailed last.reports = some failed

theorem not_ok_of_firstFailed {attempt : Attempt} {failed : StageReport}
    (h : firstFailed attempt.reports = some failed) : (s.reportOf attempt).ok = false := by
  have hfailed : failed.ok = false := by simpa using List.find?_some h
  exact List.all_eq_false.mpr ⟨failed, List.mem_of_find?_eq_some h, by rw [hfailed]; decide⟩

theorem ok_of_firstFailed {attempt : Attempt} (h : firstFailed attempt.reports = none) :
    (s.reportOf attempt).ok := by
  refine List.all_eq_true.mpr fun report hmem => ?_
  simpa using List.find?_eq_none.mp h report hmem

theorem Retrying.closed {attempts : List Attempt} {last : Attempt} {failed : StageReport}
    (h : s.Retrying history attempts last failed) :
    s.Closed ⟨history, attempts ++ [last], [s.reportOf last]⟩ where
  ordered := h.resumable.ordered
  truthful := h.resumable.truthful
  resumed := h.resumed
  complete := h.complete
  errors := ⟨last, List.getLast?_concat, by rw [not_ok_of_firstFailed h.failed]; rfl⟩

theorem resumed_append {attempts : List Attempt} {last next : Attempt}
    (h : (attempts ++ [last]).IsChain Resumes) (hnext : Resumes last next) :
    (attempts ++ [last] ++ [next]).IsChain Resumes := by
  refine List.isChain_append.mpr ⟨h, List.isChain_singleton next, ?_⟩
  intro one hone other hother
  rw [List.getLast?_concat, Option.mem_some_iff] at hone
  obtain rfl := hone
  obtain rfl := Option.mem_some_iff.mp hother
  exact hnext

theorem Retrying.next {attempts : List Attempt} {last : Attempt} {failed again : StageReport}
    (h : s.Retrying history attempts last failed)
    (hagain : firstFailed (s.runInvalidation history failed.stage).2.reports = some again) :
    s.Retrying (s.runInvalidation history failed.stage).1 (attempts ++ [last])
      (s.runInvalidation history failed.stage).2 again where
  resumable := h.resumable.next hagain
  resumed := resumed_append h.resumed ⟨failed, h.failed, rfl⟩
  complete := List.forall_mem_append.mpr ⟨h.complete,
    List.forall_mem_singleton.mpr (complete_runStages s (stagesFrom failed.stage) history)⟩
  failed := hagain

theorem Retrying.succeeded {attempts : List Attempt} {last : Attempt} {failed : StageReport}
    (h : s.Retrying history attempts last failed)
    (hnone : firstFailed (s.runInvalidation history failed.stage).2.reports = none) :
    s.Closed ⟨(s.runInvalidation history failed.stage).1,
      attempts ++ [last, (s.runInvalidation history failed.stage).2], []⟩ := by
  have hattempts : attempts ++ [last, (s.runInvalidation history failed.stage).2] =
      attempts ++ [last] ++ [(s.runInvalidation history failed.stage).2] := by
    rw [List.append_assoc, List.singleton_append]
  rw [hattempts]
  exact {
    ordered := ordered_runStages h.resumable.ready h.resumable.ordered
    truthful := truthful_runStages h.resumable.truthful
    resumed := resumed_append h.resumed ⟨failed, h.failed, rfl⟩
    complete := List.forall_mem_append.mpr ⟨h.complete,
      List.forall_mem_singleton.mpr (complete_runStages s (stagesFrom failed.stage) history)⟩
    errors := ⟨_, List.getLast?_concat, by rw [if_pos (ok_of_firstFailed hnone)]⟩ }

theorem closed_retry (delays : List ℤ) (reading : ℕ) {attempts : List Attempt} {last : Attempt}
    {failed : StageReport} (h : s.Retrying history attempts last failed) :
    s.Closed (s.retry delays reading history attempts last failed.stage) ∧
      (s.retry delays reading history attempts last failed.stage).attempts.length ≤
        attempts.length + 1 + delays.length ∧
      (s.retry delays reading history attempts last failed.stage).attempts.head? =
        (attempts ++ [last]).head? := by
  induction delays generalizing reading history attempts last failed with
  | nil => exact ⟨h.closed, by simp [retry], rfl⟩
  | cons delay delays ih =>
    rw [retry]
    split
    · exact ⟨h.closed, by simp, rfl⟩
    · dsimp only
      have happend : attempts ++ [last, (s.runInvalidation history failed.stage).2] =
          attempts ++ [last] ++ [(s.runInvalidation history failed.stage).2] := by
        rw [List.append_assoc, List.singleton_append]
      have hhead : (attempts ++ [last] ++ [(s.runInvalidation history failed.stage).2]).head? =
          (attempts ++ [last]).head? := by
        cases attempts <;> rfl
      split
      · next hnone =>
        refine ⟨h.succeeded hnone, ?_, ?_⟩
        · simp
          omega
        · rw [happend, hhead]
      · next again hagain =>
        have hnext := h.next hagain
        split
        · rw [happend]
          exact ⟨hnext.closed, by simp; omega, hhead⟩
        · obtain ⟨hclosed, hlength, hfirst⟩ := ih (reading + 1) hnext
          refine ⟨hclosed, ?_, hfirst.trans hhead⟩
          simp only [List.length_append, List.length_cons, List.length_nil] at hlength ⊢
          omega

theorem resumable_nil (s : Settling) : s.Resumable [] .data where
  ordered before entry after heq := by cases before <;> cases heq
  truthful before report after heq := by cases before <;> cases heq
  cleared := ⟨[], rfl, nofun⟩

/-- Clients and the CDN are told after the caches below them are purged, a retry goes on at the
stage that failed, and what is left failed is reported once. -/
theorem closed_settleInvalidation (s : Settling) :
    s.Closed s.settleInvalidation ∧ s.settleInvalidation.attempts.length ≤ 4 ∧
      ∃ first ∈ s.settleInvalidation.attempts.head?, first.first = .data := by
  have hcomplete := complete_runStages s (stagesFrom .data) []
  cases hfailed : firstFailed (s.runInvalidation [] .data).2.reports with
  | none =>
    have hok := ok_of_firstFailed (s := s) hfailed
    have heq : s.settleInvalidation =
        ⟨(s.runInvalidation [] .data).1, [(s.runInvalidation [] .data).2], []⟩ := by
      rw [settleInvalidation]
      exact if_pos hok
    rw [heq]
    have htruthful : s.Truthful (s.runStages (stagesFrom .data) []).1 :=
      truthful_runStages (resumable_nil s).truthful
    refine ⟨?_, Nat.le_add_left 1 3, _, rfl, rfl⟩
    exact {
      ordered := ordered_runStages (resumable_nil s).ready (resumable_nil s).ordered
      truthful := htruthful
      resumed := List.isChain_singleton _
      complete := List.forall_mem_singleton.mpr hcomplete
      errors := ⟨_, rfl, (if_pos hok).symm⟩ }
  | some failed =>
    have hretrying : s.Retrying (s.runInvalidation [] .data).1 [] (s.runInvalidation [] .data).2
        failed :=
      ⟨(resumable_nil s).next hfailed, List.isChain_singleton _,
        List.forall_mem_singleton.mpr hcomplete, hfailed⟩
    have heq : s.settleInvalidation =
        if failed.retryable = false then
          ⟨(s.runInvalidation [] .data).1, [(s.runInvalidation [] .data).2],
            [s.reportOf (s.runInvalidation [] .data).2]⟩
        else s.retry retryMs 1 (s.runInvalidation [] .data).1 [] (s.runInvalidation [] .data).2
          failed.stage := by
      simp only [settleInvalidation, not_ok_of_firstFailed hfailed, hfailed, Bool.false_eq_true,
        if_false]
    rw [heq]
    split
    · exact ⟨hretrying.closed, Nat.le_add_left 1 3, _, rfl, rfl⟩
    · have hretry := closed_retry retryMs 1 hretrying
      exact ⟨hretry.1, hretry.2.1, _, hretry.2.2, rfl⟩

end Settling

end Nifra.Invalidation
