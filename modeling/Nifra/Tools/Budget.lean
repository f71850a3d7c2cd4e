import Nifra.Lib.Conditions
import Nifra.Lib.InsertionMap
import Nifra.Tools.Contract

/-! # Tool budgets

A budget charges a cost on all of its axes or on none. Its maps are plain objects, so an axis that
an object does not hold itself can read what the object inherits.
-/

namespace Nifra.Tools

inductive BudgetError
  | typeError (message : JSString)
  | rangeError (message : JSString)
  deriving DecidableEq, Repr

/-- A cost as a caller gives it; an axis without a value holds no finite number from 0 on. -/
inductive CostInput
  | missing
  | other
  | object (axes : InsertionMap JSString (Option ℕ))

def validateAxes : List (JSString × Option ℕ) → Except JSString (List (JSString × ℕ))
  | [] => .ok []
  | (key, value) :: rest =>
    if validCapabilityId key then
      match value with
      | some value => (validateAxes rest).map ((key, value) :: ·)
      | none => .error (js "effect ledger: invalid cost axis " ++ key)
    else .error (js "effect ledger: invalid cost axis " ++ JSON.ofString key)

def validateCost : CostInput → Except JSString (List (JSString × ℕ))
  | .missing => .ok []
  | .other => .error (js "effect ledger: invalid cost")
  | .object axes =>
    if 8 < axes.size then .error (js "effect ledger: more than 8 cost axes")
    else validateAxes axes.entries

def normalizeCost (value : CostInput) (label : JSString) :
    Except BudgetError (List (JSString × ℕ)) :=
  match validateCost value with
  | .error message => .error (.typeError (label ++ js ": " ++ message))
  | .ok cost => .ok cost

/-- What a property reads: a number, or the text that comes of adding to what is no number. -/
inductive Reading
  | number (n : ℕ)
  | text (s : JSString)
  deriving DecidableEq, Repr

/-- The one property with a name that `validCapabilityId` admits, of those that a plain object
inherits. -/
def inherited : JSString := js "constructor"

def objectText : JSString := js "function Object() \x7b\n    [native code]\n\x7d"

def readAxis (own : Option Reading) (axis : JSString) : Reading :=
  own.getD (if axis = inherited then .text objectText else .number 0)

def Reading.plus : Reading → ℕ → Reading
  | .number n, value => .number (n + value)
  | .text s, value => .text (s ++ decimal value)

/-- `a < b`: these texts are no numerals, so beside a number they count as `NaN`. -/
def Reading.less : Reading → Reading → Bool
  | .number m, .number n => decide (m < n)
  | .text s, .text t => decide (s < t)
  | _, _ => false

abbrev Axes := InsertionMap JSString Reading

structure ToolBudget where
  limits : Axes
  spent : Axes

def copyCost (cost : List (JSString × ℕ)) : Axes :=
  cost.foldl (fun axes entry => axes.set entry.1 (.number entry.2)) ∅

def createToolBudget (limits initial : CostInput) : Except BudgetError ToolBudget := do
  let limits ← normalizeCost limits (js "tool budget limits")
  let spent ← normalizeCost initial (js "tool budget initial")
  match spent.find? fun entry =>
      (readAxis ((copyCost limits).get entry.1) entry.1).less (.number entry.2) with
  | some entry =>
    throw (.rangeError (js "tool budget: initial " ++ entry.1 ++ js " exceeds its limit"))
  | none => pure ⟨copyCost limits, copyCost spent⟩

def ToolBudget.exceeds (b : ToolBudget) (entry : JSString × ℕ) : Bool :=
  (readAxis (b.limits.get entry.1) entry.1).less
    ((readAxis (b.spent.get entry.1) entry.1).plus entry.2)

def charge (spent : Axes) (entry : JSString × ℕ) : Axes :=
  spent.set entry.1 ((readAxis (spent.get entry.1) entry.1).plus entry.2)

def ToolBudget.consume (b : ToolBudget) (cost : CostInput) :
    Except BudgetError Bool × ToolBudget :=
  match normalizeCost cost (js "tool cost") with
  | .error error => (.error error, b)
  | .ok next =>
    if next.any b.exceeds then (.ok false, b)
    else (.ok true, { b with spent := next.foldl charge b.spent })

def consumeAll : ToolBudget → List CostInput → ToolBudget
  | b, [] => b
  | b, cost :: costs => consumeAll (b.consume cost).2 costs

def accepted : ToolBudget → List CostInput → List CostInput
  | _, [] => []
  | b, cost :: costs =>
    if (b.consume cost).1 = .ok true then cost :: accepted (b.consume cost).2 costs
    else accepted (b.consume cost).2 costs

def CostInput.amount (cost : CostInput) (axis : JSString) : ℕ :=
  match cost with
  | .object axes => ((axes.get axis).join).getD 0
  | _ => 0

def CostInput.Names (cost : CostInput) (axis : JSString) : Prop :=
  match cost with
  | .object axes => axis ∈ axes.keys
  | _ => False

def ToolBudget.snapshot (b : ToolBudget) (axis : JSString) : Reading :=
  (b.spent.get axis).getD (.number 0)

theorem validateAxes_eq_ok {axes : List (JSString × Option ℕ)} {cost : List (JSString × ℕ)}
    (h : validateAxes axes = .ok cost) : axes = cost.map fun entry => (entry.1, some entry.2) := by
  induction axes generalizing cost with
  | nil =>
    cases h
    rfl
  | cons entry rest ih =>
    obtain ⟨key, _ | value⟩ := entry
    · rw [validateAxes] at h
      split_ifs at h
    · rw [validateAxes] at h
      split_ifs at h
      cases hrest : validateAxes rest with
      | error error =>
        rw [hrest] at h
        cases h
      | ok rest' =>
        rw [hrest] at h
        cases h
        rw [List.map_cons, ih hrest]

/-- A cost that passes is its own list of axes and amounts. -/
structure Lists (cost : CostInput) (next : List (JSString × ℕ)) : Prop where
  nodup : (next.map Prod.fst).Nodup
  mem : ∀ axis, cost.Names axis ↔ axis ∈ next.map Prod.fst
  amount : ∀ entry ∈ next, cost.amount entry.1 = entry.2
  absent : ∀ axis, axis ∉ next.map Prod.fst → cost.amount axis = 0

theorem lists_of_validateCost {cost : CostInput} {next : List (JSString × ℕ)}
    (h : validateCost cost = .ok next) : Lists cost next := by
  cases cost with
  | missing =>
    cases h
    exact ⟨.nil, fun axis => by simp [CostInput.Names], nofun, fun _ _ => rfl⟩
  | other => cases h
  | object axes =>
    rw [validateCost] at h
    split_ifs at h
    have hentries := validateAxes_eq_ok h
    have hkeys : axes.keys = next.map Prod.fst := by
      rw [InsertionMap.keys, hentries, List.map_map]
      rfl
    refine ⟨hkeys ▸ axes.nodup, fun axis => by rw [CostInput.Names, hkeys], ?_, ?_⟩
    · rintro ⟨axis, amount⟩ hentry
      have hget : axes.get axis = some (some amount) := by
        rw [InsertionMap.get_eq_some_iff, hentries]
        exact List.mem_map_of_mem (f := fun entry => (entry.1, some entry.2)) hentry
      simp [CostInput.amount, hget]
    · intro axis haxis
      have hget : axes.get axis = none := InsertionMap.get_eq_none_iff.mpr (hkeys ▸ haxis)
      simp [CostInput.amount, hget]

theorem lists_of_normalizeCost {cost : CostInput} {label : JSString} {next : List (JSString × ℕ)}
    (h : normalizeCost cost label = .ok next) : Lists cost next := by
  rw [normalizeCost] at h
  split at h
  · cases h
  · rename_i hcost
    cases h
    exact lists_of_validateCost hcost

theorem get_copyCost {cost : CostInput} {next : List (JSString × ℕ)} (h : Lists cost next)
    (axis : JSString) : (copyCost next).get axis =
      if axis ∈ next.map Prod.fst then some (.number (cost.amount axis)) else none := by
  have hentries : (copyCost next).entries = next.map fun entry => (entry.1, .number entry.2) := by
    have hset := InsertionMap.entries_foldl_set (m := (∅ : Axes))
      (l := next.map fun entry => (entry.1, Reading.number entry.2)) (by
        change ((next.map fun entry => (entry.1, Reading.number entry.2)).map Prod.fst).Nodup
        simpa [List.map_map, Function.comp_def] using h.nodup)
    rw [List.foldl_map] at hset
    exact hset
  split_ifs with haxis
  · obtain ⟨entry, hentry, rfl⟩ := List.mem_map.mp haxis
    rw [InsertionMap.get_eq_some_iff, hentries, h.amount entry hentry]
    exact List.mem_map_of_mem (f := fun entry => (entry.1, Reading.number entry.2)) hentry
  · rw [InsertionMap.get_eq_none_iff, InsertionMap.keys, hentries, List.map_map]
    exact haxis

/-- A budget with these limits, that was charged these amounts, and the names of its own axes. -/
structure Account (limits initial : CostInput) (b : ToolBudget) (charged : JSString → ℕ) :
    Prop where
  limit : ∀ axis, b.limits.get axis = none ∧ limits.amount axis = 0 ∧ ¬ limits.Names axis ∨
    b.limits.get axis = some (.number (limits.amount axis))
  spent : ∀ axis, b.spent.get axis = none ∧ initial.amount axis + charged axis = 0 ∧
      ¬ initial.Names axis ∨
    b.spent.get axis = some (.number (initial.amount axis + charged axis))
  within : ∀ axis, initial.amount axis + charged axis ≤ limits.amount axis

variable {limits initial cost : CostInput} {b : ToolBudget} {charged : JSString → ℕ}

theorem Account.snapshot (h : Account limits initial b charged) (axis : JSString) :
    b.snapshot axis = .number (initial.amount axis + charged axis) := by
  rcases h.spent axis with ⟨hnone, hzero, -⟩ | hsome
  · rw [ToolBudget.snapshot, hnone, hzero]
    rfl
  · rw [ToolBudget.snapshot, hsome]
    rfl

/-- The inherited name is read only where the limits and the initial cost hold it themselves. -/
def Owned (limits initial cost : CostInput) : Prop :=
  cost.Names inherited → limits.Names inherited ∧ initial.Names inherited

theorem Account.readLimit (h : Account limits initial b charged) {axis : JSString}
    (hown : axis = inherited → limits.Names inherited) :
    readAxis (b.limits.get axis) axis = .number (limits.amount axis) := by
  rcases h.limit axis with ⟨hnone, hzero, hnames⟩ | hsome
  · have hne : axis ≠ inherited := fun heq => hnames (heq ▸ hown heq)
    rw [readAxis, hnone, Option.getD_none, if_neg hne, hzero]
  · rw [readAxis, hsome, Option.getD_some]

theorem Account.readSpent (h : Account limits initial b charged) {axis : JSString}
    (hown : axis = inherited → initial.Names inherited) :
    readAxis (b.spent.get axis) axis = .number (initial.amount axis + charged axis) := by
  rcases h.spent axis with ⟨hnone, hzero, hnames⟩ | hsome
  · have hne : axis ≠ inherited := fun heq => hnames (heq ▸ hown heq)
    rw [readAxis, hnone, Option.getD_none, if_neg hne, hzero]
  · rw [readAxis, hsome, Option.getD_some]

theorem account_create (hcreate : createToolBudget limits initial = .ok b)
    (hinitial : initial.Names inherited → limits.Names inherited) :
    Account limits initial b fun _ => 0 := by
  rw [createToolBudget, except_bind_eq_ok_iff] at hcreate
  obtain ⟨limits', hlimits, hcreate⟩ := hcreate
  obtain ⟨spent, hspent, hcreate⟩ := except_bind_eq_ok_iff.mp hcreate
  have hl := lists_of_normalizeCost hlimits
  have hs := lists_of_normalizeCost hspent
  split at hcreate
  · cases hcreate
  · rename_i hnone
    cases hcreate
    refine ⟨fun axis => ?_, fun axis => ?_, fun axis => ?_⟩
    · rw [hl.mem, get_copyCost hl]
      by_cases haxis : axis ∈ limits'.map Prod.fst
      · exact Or.inr (if_pos haxis)
      · exact Or.inl ⟨if_neg haxis, hl.absent axis haxis, haxis⟩
    · rw [hs.mem, get_copyCost hs]
      by_cases haxis : axis ∈ spent.map Prod.fst
      · exact Or.inr (if_pos haxis)
      · exact Or.inl ⟨if_neg haxis, hs.absent axis haxis, haxis⟩
    · by_cases haxis : axis ∈ spent.map Prod.fst
      · obtain ⟨entry, hentry, rfl⟩ := List.mem_map.mp haxis
        have hless := List.find?_eq_none.mp hnone entry hentry
        have hread : readAxis ((copyCost limits').get entry.1) entry.1 =
            .number (limits.amount entry.1) := by
          rw [get_copyCost hl]
          by_cases hnames : entry.1 ∈ limits'.map Prod.fst
          · rw [if_pos hnames, readAxis, Option.getD_some]
          · have hne : entry.1 ≠ inherited := by
              intro heq
              rw [heq] at haxis hnames
              exact hnames ((hl.mem _).mp (hinitial ((hs.mem _).mpr haxis)))
            rw [if_neg hnames, readAxis, Option.getD_none, if_neg hne, hl.absent _ hnames]
        rw [hread, Reading.less, decide_eq_true_eq, not_lt] at hless
        rw [hs.amount entry hentry]
        exact hless
      · rw [hs.absent axis haxis]
        exact Nat.zero_le _

theorem get_foldl_charge {next : List (JSString × ℕ)} (h : (next.map Prod.fst).Nodup)
    (spent : Axes) :
    (∀ axis, axis ∉ next.map Prod.fst → (next.foldl charge spent).get axis = spent.get axis) ∧
    ∀ entry ∈ next, (next.foldl charge spent).get entry.1 =
      some ((readAxis (spent.get entry.1) entry.1).plus entry.2) := by
  induction next generalizing spent with
  | nil => exact ⟨fun _ _ => rfl, nofun⟩
  | cons first next ih =>
    rw [List.map_cons, List.nodup_cons] at h
    obtain ⟨hkeep, hcharge⟩ := ih h.2 (charge spent first)
    have hother {axis : JSString} (hne : axis ≠ first.1) :
        (charge spent first).get axis = spent.get axis := InsertionMap.get_set_of_ne hne
    refine ⟨fun axis haxis => ?_, List.forall_mem_cons.mpr ⟨?_, fun entry hentry => ?_⟩⟩
    · rw [List.map_cons, List.mem_cons, not_or] at haxis
      rw [List.foldl_cons, hkeep axis haxis.2, hother haxis.1]
    · rw [List.foldl_cons, hkeep _ h.1, charge, InsertionMap.get_set_self]
    · have hne : entry.1 ≠ first.1 := fun heq => h.1 (heq ▸ List.mem_map_of_mem hentry)
      rw [List.foldl_cons, hcharge entry hentry, hother hne]

theorem Account.consume (h : Account limits initial b charged)
    (howned : Owned limits initial cost) :
    (∀ next, normalizeCost cost (js "tool cost") = .ok next →
      ((b.consume cost).1 = .ok true ↔ ∀ axis, cost.Names axis →
        initial.amount axis + charged axis + cost.amount axis ≤ limits.amount axis)) ∧
    ((b.consume cost).1 ≠ .ok true → (b.consume cost).2 = b) ∧
    ((b.consume cost).1 = .ok true → Account limits initial (b.consume cost).2 fun axis =>
      charged axis + cost.amount axis) := by
  unfold ToolBudget.consume
  cases hnext : normalizeCost cost (js "tool cost") with
  | error error => exact ⟨nofun, fun _ => rfl, nofun⟩
  | ok next =>
    have hlists := lists_of_normalizeCost hnext
    have hown {axis : JSString} (haxis : axis ∈ next.map Prod.fst) (heq : axis = inherited) :
        limits.Names inherited ∧ initial.Names inherited :=
      howned ((hlists.mem _).mpr (heq ▸ haxis))
    have hexceeds (entry : JSString × ℕ) (hentry : entry ∈ next) : b.exceeds entry = true ↔
        limits.amount entry.1 < initial.amount entry.1 + charged entry.1 + entry.2 := by
      have hmem := List.mem_map_of_mem (f := Prod.fst) hentry
      rw [ToolBudget.exceeds, h.readLimit fun heq => (hown hmem heq).1,
        h.readSpent fun heq => (hown hmem heq).2, Reading.plus, Reading.less, decide_eq_true_eq]
    have hany : next.any b.exceeds = true ↔ ¬ ∀ axis, cost.Names axis →
        initial.amount axis + charged axis + cost.amount axis ≤ limits.amount axis := by
      rw [List.any_eq_true]
      constructor
      · rintro ⟨entry, hentry, hless⟩ hall
        have hle := hall entry.1 ((hlists.mem _).mpr (List.mem_map_of_mem hentry))
        rw [hlists.amount entry hentry] at hle
        have hlt := (hexceeds entry hentry).mp hless
        omega
      · intro hnot
        by_contra hnone
        refine hnot fun axis haxis => ?_
        obtain ⟨entry, hentry, rfl⟩ := List.mem_map.mp ((hlists.mem axis).mp haxis)
        rw [hlists.amount entry hentry]
        exact not_lt.mp fun hlt => hnone ⟨entry, hentry, (hexceeds entry hentry).mpr hlt⟩
    simp only
    by_cases hrefused : next.any b.exceeds = true
    · rw [if_pos hrefused]
      exact ⟨fun _ _ => ⟨nofun, fun hall => absurd hall (hany.mp hrefused)⟩, fun _ => rfl, nofun⟩
    · rw [if_neg hrefused]
      have hall := not_not.mp (hany.not.mp hrefused)
      refine ⟨fun _ _ => ⟨fun _ => hall, fun _ => rfl⟩, fun hne => absurd rfl hne, fun _ => ?_⟩
      obtain ⟨hkeep, hcharge⟩ := get_foldl_charge hlists.nodup b.spent
      refine ⟨h.limit, fun axis => ?_, fun axis => ?_⟩
      · by_cases haxis : axis ∈ next.map Prod.fst
        · obtain ⟨entry, hentry, rfl⟩ := List.mem_map.mp haxis
          rw [hcharge entry hentry, h.readSpent fun heq => (hown haxis heq).2,
            hlists.amount entry hentry, Reading.plus, Nat.add_assoc]
          exact Or.inr rfl
        · rw [hkeep axis haxis, hlists.absent axis haxis]
          exact h.spent axis
      · by_cases haxis : axis ∈ next.map Prod.fst
        · rw [← Nat.add_assoc]
          exact hall axis ((hlists.mem axis).mpr haxis)
        · rw [hlists.absent axis haxis]
          exact h.within axis

theorem Account.consumeAll (h : Account limits initial b charged) {costs : List CostInput}
    (hcosts : ∀ cost ∈ costs, Owned limits initial cost) :
    Account limits initial (consumeAll b costs) fun axis =>
      charged axis + ((accepted b costs).map (·.amount axis)).sum := by
  induction costs generalizing b charged with
  | nil => exact h
  | cons cost costs ih =>
    obtain ⟨hcost, hcosts⟩ := List.forall_mem_cons.mp hcosts
    obtain ⟨-, hkeep, hcharge⟩ := h.consume hcost
    rw [Tools.consumeAll, accepted]
    split_ifs with htrue
    · have hrest := ih (hcharge htrue) hcosts
      simp only [List.map_cons, List.sum_cons, ← Nat.add_assoc]
      exact hrest
    · rw [hkeep htrue]
      exact ih h hcosts

/-- While nobody names the inherited property in vain, a budget charges what it accepts and is
never overspent. -/
theorem toolBudget_accounts (hcreate : createToolBudget limits initial = .ok b)
    (hinitial : initial.Names inherited → limits.Names inherited) {costs : List CostInput}
    (hcosts : ∀ cost ∈ costs, Owned limits initial cost) :
    let spent axis := initial.amount axis + ((accepted b costs).map (·.amount axis)).sum
    (∀ axis, (consumeAll b costs).snapshot axis = .number (spent axis) ∧
      spent axis ≤ limits.amount axis) ∧
    ∀ cost, Owned limits initial cost →
      (∀ next, normalizeCost cost (js "tool cost") = .ok next →
        (((consumeAll b costs).consume cost).1 = .ok true ↔ ∀ axis, cost.Names axis →
          spent axis + cost.amount axis ≤ limits.amount axis)) ∧
      (((consumeAll b costs).consume cost).1 ≠ .ok true →
        ((consumeAll b costs).consume cost).2 = consumeAll b costs) := by
  have haccount := (account_create hcreate hinitial).consumeAll hcosts
  simp only [Nat.zero_add] at haccount
  refine ⟨fun axis => ⟨haccount.snapshot axis, haccount.within axis⟩, fun cost hcost => ?_⟩
  obtain ⟨hanswer, hkeep, -⟩ := haccount.consume hcost
  exact ⟨hanswer, hkeep⟩

def onInherited (amount : ℕ) : CostInput := .object ⟨[(inherited, some amount)], by simp⟩

theorem toolBudget_accounts_two : ∃ b, createToolBudget (onInherited 9) (onInherited 2) = .ok b ∧
    (consumeAll b [onInherited 5]).snapshot inherited = .number 7 := by
  obtain ⟨b, hb⟩ : ∃ b, createToolBudget (onInherited 9) (onInherited 2) = .ok b := ⟨_, rfl⟩
  have hnames (amount : ℕ) : (onInherited amount).Names inherited := List.mem_cons_self
  have howned : ∀ cost ∈ [onInherited 5], Owned (onInherited 9) (onInherited 2) cost :=
    fun _ _ _ => ⟨hnames 9, hnames 2⟩
  have haccounts := toolBudget_accounts hb (fun _ => hnames 9) howned
  refine ⟨b, hb, (haccounts.1 inherited).1.trans ?_⟩
  cases hb
  decide

/-- With a limit of 10 on that axis and nothing spent, 5 and then 100 are accepted. -/
theorem toolBudget_overspent : ∃ b, createToolBudget (onInherited 10) .missing = .ok b ∧
    (b.consume (onInherited 5)).1 = .ok true ∧
    ((b.consume (onInherited 5)).2.consume (onInherited 100)).1 = .ok true ∧
    (onInherited 10).amount inherited < (onInherited 5).amount inherited +
      (onInherited 100).amount inherited ∧
    (b.consume (onInherited 5)).2.snapshot inherited ≠ .number 5 :=
  ⟨_, rfl, by decide, by decide, by decide, by decide⟩

end Nifra.Tools
