import Nifra.Idempotency.LaneSound

/-! # The lane settles every reservation

The results over every run: what every request does with its reservation, one handler after the
other for a key, and what a request whose settlement was refused answers.
-/

namespace Nifra.Idempotency

variable {T E : Type*}

namespace Request

def Finished (c : Request T E) : Prop :=
  (∃ outcome, c.stop = .answered outcome) ∨ ∃ error, c.stop = .failing error

structure Settles (c : Request T E) : Prop where
  /-- One settlement has been asked for when the lane is done. -/
  once : ∀ r, c.reservation = some r → c.Finished →
    ∃ x, c.settlements = [x] ∧ x.reservation = r
  atMost : c.settlements.length ≤ 1
  own : ∀ x ∈ c.settlements, c.reservation = some x.reservation
  /-- `abandon` is for a request that has begun no effect. -/
  abandons : ∀ x ∈ c.settlements, x.abandons = true → x.began = false
  heartbeat : c.Finished → c.heartbeat = false

/-- A request whose settlement was refused answers 503, with a response of the lane's own. -/
def AnswersRefusal (c : Request T E) : Prop :=
  c.refused = true → ∀ outcome, c.stop = .answered outcome →
    ∃ response, outcome = .ok response ∧ response.status = 503 ∧
      (response = c.route.wrapResponse timedOut ∨
        response = c.route.wrapResponse reservationLost)

variable {c c' : Request T E}

theorem Settles.of_none (hreservation : c.reservation = none) (hsettlements : c.settlements = [])
    (hheartbeat : c.Finished → c.heartbeat = false) : c.Settles := by
  constructor
  · intro r hr
    rw [hreservation] at hr
    cases hr
  · simp [hsettlements]
  · simp [hsettlements]
  · simp [hsettlements]
  · exact hheartbeat

theorem Settles.of_settling {r : JSString} (h : c.standing.Settling r)
    (hheartbeat : c.Finished → c.heartbeat = false) : c.Settles := by
  have hreservation : c.reservation = some r := h.reservation
  obtain ⟨x, hx, hown, habandons⟩ := h.once
  have hsettlements : c.settlements = [x] := hx
  constructor
  · intro r' hr' _
    rw [hreservation] at hr'
    exact ⟨x, hsettlements, hown.trans (Option.some.inj hr')⟩
  · simp [hsettlements]
  · simp [hsettlements, hreservation, hown]
  · simpa [hsettlements] using habandons
  · exact hheartbeat

theorem Settles.of_claimed {r : JSString} (h : c.standing.Claimed r) (hopen : ¬ c.Finished) :
    c.Settles := by
  have hsettlements : c.settlements = [] := h.settlements
  constructor
  · intro _ _ hfinished
    exact absurd hfinished hopen
  · simp [hsettlements]
  · simp [hsettlements]
  · simp [hsettlements]
  · exact fun hfinished => absurd hfinished hopen

theorem Settles.of_over (h : c.standing.Over) : c.Settles := by
  rcases h.settled with hnone | ⟨r, hr⟩
  · exact .of_none hnone.reservation hnone.settlements fun _ => h.heartbeat
  · exact .of_settling hr fun _ => h.heartbeat

theorem Sound.settles (h : c.Sound) : c.Settles := by
  have hopen : ∀ {stop : Stop T E}, c.stop = stop → (∀ outcome, stop ≠ .answered outcome) →
      (∀ error, stop ≠ .failing error) → ¬ c.Finished := by
    rintro stop rfl hanswered hfailing (⟨outcome, hstop⟩ | ⟨error, hstop⟩)
    · exact hanswered outcome hstop
    · exact hfailing error hstop
  cases hstop : c.stop with
  | resolving | reading | digesting =>
    have hunbegun : c.standing.Unbegun := h.at hstop
    exact .of_over hunbegun.over
  | replaying =>
    have hunclaimed : c.standing.Unclaimed := h.at hstop
    exact .of_over hunclaimed.over
  | calling op answer next =>
    have hholds := h.at hstop
    cases op with
    | begin input => exact .of_over (Standing.Unbegun.over hholds.1)
    | complete input => exact .of_settling hholds.1 fun hf => absurd hf (hopen hstop nofun nofun)
    | abandon input => exact .of_settling hholds.1 fun hf => absurd hf (hopen hstop nofun nofun)
    | renew input => exact hholds.elim
  | running r => exact .of_claimed (h.at hstop) (hopen hstop nofun nofun)
  | capturing r response capture =>
    exact .of_claimed (h.at hstop).1 (hopen hstop nofun nofun)
  | failing error | answered outcome => exact .of_over (h.at hstop)

theorem Sound.reserved (h : c.Sound) (hentered : c.entered = true) :
    ∃ r, c.reservation = some r := by
  have hclaimed : ¬ c.standing.Unclaimed := by
    intro hunclaimed
    have hfalse : c.entered = false := hunclaimed.entered
    rw [hfalse] at hentered
    cases hentered
  have hover : c.standing.Over → ∃ r, c.reservation = some r := by
    intro hover
    rcases hover.settled with hnone | ⟨r, hr⟩
    · exact absurd hnone hclaimed
    · exact ⟨r, hr.reservation⟩
  cases hstop : c.stop with
  | resolving | reading | digesting =>
    exact absurd (Standing.Unbegun.toUnclaimed (h.at hstop)) hclaimed
  | replaying => exact absurd (h.at hstop) hclaimed
  | calling op answer next =>
    have hholds := h.at hstop
    cases op with
    | begin input => exact absurd hholds.1.toUnclaimed hclaimed
    | complete input => exact ⟨_, hholds.1.reservation⟩
    | abandon input => exact ⟨_, hholds.1.reservation⟩
    | renew input => exact hholds.elim
  | running r => exact ⟨r, Standing.Claimed.reservation (h.at hstop)⟩
  | capturing r response capture => exact ⟨r, (h.at hstop).1.reservation⟩
  | failing error | answered outcome => exact hover (h.at hstop)

/-- A refusal has been answered, and none is on its way to a throw. -/
structure Heeded (c : Request T E) : Prop where
  answered : c.refused = true → ∃ lost, (lost = timedOut ∨ lost = reservationLost) ∧
    c.stop = .answered (.ok (c.route.wrapResponse lost))
  kept : ∀ op error, c.stop ≠ .calling op (some (.settled false)) (.rethrow error)

theorem kept_of_asks (h : c.delivering = false) (op : StoreOp T) (error : Failure E) :
    c.stop ≠ .calling op (some (.settled false)) (.rethrow error) := by
  intro hstop
  rw [delivering, hstop] at h
  cases h

theorem Heeded.answersRefusal (h : c.Heeded) : c.AnswersRefusal := by
  intro hrefused outcome hstop
  obtain ⟨lost, hlost, hanswered⟩ := h.answered hrefused
  rw [hanswered] at hstop
  refine ⟨_, (Stop.answered.inj hstop).symm, ?_, ?_⟩
  · rw [c.route.wrapResponse_status]
    rcases hlost with rfl | rfl
    · rfl
    · rfl
  · rcases hlost with rfl | rfl
    · exact Or.inl rfl
    · exact Or.inr rfl

theorem Heeded.goesOn (h : c.Heeded) (hgo : c.GoesOn c')
    (hopen : ∀ outcome, c.stop ≠ .answered outcome) : c'.Heeded := by
  constructor
  · intro hrefused
    obtain ⟨lost, -, hanswered⟩ := h.answered (hgo.refused ▸ hrefused)
    exact absurd hanswered (hopen _)
  · exact kept_of_asks hgo.asks

theorem Heeded.not_refused (h : c.Heeded) (hopen : ∀ outcome, c.stop ≠ .answered outcome) :
    c.refused = false := by
  by_contra hrefused
  obtain ⟨lost, -, hanswered⟩ := h.answered (by simpa using hrefused)
  exact hopen _ hanswered

theorem Heeded.of_same (h : c.Heeded) (hstop : c'.stop = c.stop) (hrefused : c'.refused = c.refused)
    (hroute : c'.route = c.route) : c'.Heeded := by
  constructor
  · rw [hrefused, hstop, hroute]
    exact h.answered
  · rw [hstop]
    exact h.kept

section Errors
variable [DecidableEq E]

theorem answer_open {a : LaneAnswer E} (ha : c.answer a = some c') (outcome) :
    c.stop ≠ .answered outcome := by
  intro hstop
  unfold answer at ha
  rw [hstop] at ha
  split at ha <;> simp_all

theorem reject_open {error : E} (hc : c.reject error = some c') (outcome) :
    c.stop ≠ .answered outcome := by
  intro hstop
  unfold reject at hc
  rw [hstop] at hc
  cases hc

omit [DecidableEq E] in
theorem heeded_enter (h : c.Heeded) (hc : c.enter = some c') : c'.Heeded := by
  unfold enter at hc
  split at hc
  · split_ifs at hc
    obtain rfl := Option.some.inj hc
    exact h.of_same rfl rfl rfl
  · cases hc

theorem heeded_deliver (h : c.Sound) (hc : c.Heeded) (hdeliver : c.deliver = some c') :
    c'.Heeded := by
  have hopen : ∀ outcome, c.stop ≠ .answered outcome := by
    intro outcome hstop
    unfold deliver at hdeliver
    rw [hstop] at hdeliver
    cases hdeliver
  have hfalse := hc.not_refused hopen
  unfold deliver at hdeliver
  split at hdeliver
  · rename_i op result hstop
    obtain rfl := Option.some.inj hdeliver
    exact hc.goesOn (goesOn_afterBegin (h.unbegun hstop) hstop) hopen
  · rename_i op accepted next hstop
    cases next with
    | begun => cases hdeliver
    | timedOut =>
      obtain rfl := Option.some.inj hdeliver
      exact ⟨fun _ => ⟨timedOut, Or.inl rfl, rfl⟩, nofun⟩
    | rethrow error =>
      obtain rfl := Option.some.inj hdeliver
      cases accepted with
      | true =>
        have hmoved : ({ c with refused := c.refused || !true } : Request T E).Moved
            ({ c with refused := c.refused || !true }.leave error) := moved_leave
        constructor
        · intro hrefused
          rw [hmoved.refused] at hrefused
          simp [hfalse] at hrefused
        · exact kept_of_asks hmoved.asks
      | false => exact absurd hstop (hc.kept op error)
    | respond response =>
      obtain rfl := Option.some.inj hdeliver
      refine ⟨fun hrefused => ⟨reservationLost, Or.inr rfl, ?_⟩, nofun⟩
      have haccepted : accepted = false := by
        have hrefused : (c.refused || !accepted) = true := hrefused
        simpa [hfalse] using hrefused
      subst haccepted
      rfl
  · cases hdeliver

end Errors

end Request

namespace Lanes

structure Consistent [LinearOrder T] (s : Lanes T E) : Prop where
  sound : ∀ c ∈ s.requests, c.Sound
  ordered : s.book.Ordered s.clock
  gave : ∀ (i : ℕ) (c : Request T E) r, s.requests[i]? = some c → c.claim = some r →
    s.book.Gave c.entryKey r
  own : ∀ (i j : ℕ) (c d : Request T E) r, s.requests[i]? = some c → s.requests[j]? = some d →
    c.claim = some r → d.claim = some r → i = j

/-- The reservation of a request that threw, or whose response could not be captured, before an
effect began, is still pending when the store performs its `abandon`. -/
def Kept [LinearOrder T] (s : Lanes T E) : LaneEvent T E → Prop
  | .perform i t _ => match (s.requests[i]?).map Request.stop with
    | some (.calling (.abandon input) none (.rethrow _)) =>
      (s.book.pending input.toEntryKey input.reservation t).isSome
    | _ => True
  | _ => True

instance [LinearOrder T] (s : Lanes T E) (e : LaneEvent T E) : Decidable (s.Kept e) := by
  unfold Kept
  split
  · split <;> infer_instance
  · infer_instance

variable [LinearOrder T] {s t : Lanes T E} {i : ℕ} {c c' : Request T E}

theorem Consistent.init (clock : T) : (init clock : Lanes T E).Consistent := by
  constructor
  · intro c hc
    cases hc
  · exact .empty
  · intro i c r hc
    cases hc
  · intro i j c d r hc
    cases hc

theorem Consistent.replace (h : s.Consistent) (hc : s.requests[i]? = some c) (hsound : c'.Sound)
    {book : Book T} {now : T} (hfollows : s.book.Follows book now) (hle : s.clock ≤ now)
    (hclaim : ∀ r, c'.claim = some r → c.claim = some r ∧ c'.entryKey = c.entryKey ∨
      book.Gave c'.entryKey r ∧ ∀ k, ¬ s.book.Gave k r) (strays : List (StoreOp T)) :
    Consistent ⟨now, book, s.requests.set i c', strays⟩ := by
  have hnew : ∀ j d r, s.requests[j]? = some d → d.claim = some r → j ≠ i →
      c'.claim ≠ some r := by
    intro j d r hd hr hj hr'
    rcases hclaim r hr' with ⟨hold, -⟩ | ⟨-, hfresh⟩
    · exact hj (h.own j i d c r hd hc hr hold)
    · exact hfresh _ (h.gave j d r hd hr)
  constructor
  · intro d hd
    rcases List.mem_or_eq_of_mem_set hd with hd | rfl
    · exact h.sound d hd
    · exact hsound
  · exact hfollows.ordered (h.ordered.mono hle)
  · intro j d r hd hr
    rcases Runs.getElem?_set_cases hd with ⟨rfl, rfl⟩ | ⟨-, hd⟩
    · rcases hclaim r hr with ⟨hold, hkey⟩ | ⟨hgave, -⟩
      · rw [hkey]
        exact hfollows.gave _ _ (h.gave j c r hc hold)
      · exact hgave
    · exact hfollows.gave _ _ (h.gave j d r hd hr)
  · intro j k d e r hd he hr hr'
    rcases Runs.getElem?_set_cases hd with ⟨rfl, rfl⟩ | ⟨hj, hd'⟩
    · rcases Runs.getElem?_set_cases he with ⟨rfl, -⟩ | ⟨hk, he⟩
      · rfl
      · exact absurd hr (hnew k e r he hr' hk)
    · rcases Runs.getElem?_set_cases he with ⟨rfl, rfl⟩ | ⟨-, he⟩
      · exact absurd hr' (hnew j d r hd' hr hj)
      · exact h.own j k d e r hd' he hr hr'

theorem Consistent.put (h : s.Consistent) (hc : s.requests[i]? = some c)
    (hs : c'.Sound ∧ c.Keeps c') (strays : List (StoreOp T)) :
    Consistent { s.put i c' with strays := strays } :=
  h.replace hc hs.1 .refl le_rfl (fun r hr => Or.inl (hs.2 r hr)) strays

theorem Consistent.admitRequest [DecidableEq E] (h : s.Consistent) (route : Route T E)
    (prepared : Prepared E) :
    Consistent { s with requests := s.requests ++ [admitRequest route prepared] } := by
  obtain ⟨hsound, hnew⟩ := Request.sound_admit route prepared
  have hold : ∀ {j : ℕ} {d : Request T E} {r : JSString},
      (s.requests ++ [Idempotency.admitRequest route prepared])[j]? = some d → d.claim = some r →
        s.requests[j]? = some d := by
    intro j d r hd hr
    by_cases hj : j < s.requests.length
    · rwa [List.getElem?_append_left hj] at hd
    · rw [List.getElem?_append_right (not_lt.mp hj)] at hd
      have hmem := List.mem_of_getElem? hd
      rw [List.mem_singleton.mp hmem, hnew.claim] at hr
      cases hr
  constructor
  · intro d hd
    rcases List.mem_append.mp hd with hd | hd
    · exact h.sound d hd
    · rwa [List.mem_singleton.mp hd]
  · exact h.ordered
  · exact fun j d r hd hr => h.gave j d r (hold hd hr) hr
  · exact fun j k d e r hd he hr hr' => h.own j k d e r (hold hd hr) (hold he hr') hr hr'

theorem Consistent.performed (h : s.Consistent) {book : Book T} {now : T}
    (hfollows : s.book.Follows book now) (hle : s.clock ≤ now) (strays : List (StoreOp T)) :
    Consistent { s with clock := now, book := book, strays := strays } :=
  ⟨h.sound, hfollows.ordered (h.ordered.mono hle),
    fun i c r hc hr => hfollows.gave _ _ (h.gave i c r hc hr), h.own⟩

section Store
variable [Add T]

theorem claim_of_performed (h : c.Sound) {op : StoreOp T} {next : Next E}
    (hstop : c.stop = .calling op none next) {b book : Book T} {now : T} {answer : StoreAnswer}
    (hbook : b.perform op now answer = some book) {r : JSString}
    (hr : ({ c with stop := .calling op (some answer) next } : Request T E).claim = some r) :
    c.claim = some r ∨ book.Gave c.entryKey r ∧ ∀ k, ¬ b.Gave k r := by
  have hclaim : c.claim = c.reservation := by
    apply Request.claim_of_asks
    rw [Request.delivering, hstop]
  unfold Request.claim at hr
  split at hr
  · rename_i op' r' hcalling
    obtain ⟨rfl, hanswer, rfl⟩ := Stop.calling.inj hcalling
    obtain rfl := Option.some.inj hanswer
    obtain rfl := Option.some.inj hr
    have hholds := h.at hstop
    cases op with
    | begin input =>
      rw [← hholds.2.1]
      exact Or.inr (Book.begin_gives hbook)
    | complete input => cases hbook
    | abandon input => cases hbook
    | renew input => cases hbook
  · exact Or.inl (hclaim.trans hr)

theorem Consistent.perform (h : s.Consistent) {now : T} {answer : StoreAnswer}
    (ht : s.perform i now answer = some t) : t.Consistent := by
  obtain ⟨c, op, next, book, hc, hstop, hclock, hbook, rfl⟩ := perform_cases ht
  have hsound := h.sound c (List.mem_of_getElem? hc)
  refine h.replace hc ?_ (Book.perform_follows hbook) hclock ?_ s.strays
  · have hholds := hsound.at hstop
    cases op with
    | begin input => exact hholds
    | complete input => exact hholds
    | abandon input => exact hholds
    | renew input => exact hholds
  · intro r hr
    exact (claim_of_performed hsound hstop hbook hr).imp (fun hold => ⟨hold, rfl⟩) id

theorem Consistent.step [DecidableEq E] (h : s.Consistent) {e : LaneEvent T E}
    (ht : s.step e = some t) : t.Consistent := by
  have hsound : ∀ {i : ℕ} {c : Request T E}, s.requests[i]? = some c → c.Sound :=
    fun hc => h.sound _ (List.mem_of_getElem? hc)
  cases e with
  | request route prepared =>
    obtain rfl := Option.some.inj ht
    exact h.admitRequest route prepared
  | abort i =>
    obtain ⟨c, c', hc, hc', rfl⟩ := advance_cases ht
    obtain rfl := Option.some.inj hc'
    exact h.put hc (Request.sound_abort (hsound hc)) s.strays
  | answer i answer =>
    obtain ⟨c, c', hc, hc', rfl⟩ := advance_cases ht
    have hs := Request.sound_answer (hsound hc) hc'
    exact h.put hc ⟨hs.1, hs.2.keeps⟩ s.strays
  | enter i =>
    obtain ⟨c, c', hc, hc', rfl⟩ := advance_cases ht
    exact h.put hc (Request.sound_enter (hsound hc) hc') s.strays
  | mark i effect =>
    obtain ⟨c, c', hc, hc', rfl⟩ := advance_cases ht
    exact h.put hc (Request.sound_mark (hsound hc) hc') s.strays
  | perform i now answer => exact h.perform ht
  | deliver i =>
    obtain ⟨c, c', hc, hc', rfl⟩ := advance_cases ht
    exact h.put hc (Request.sound_deliver (hsound hc) hc') s.strays
  | reject i error =>
    obtain ⟨c, c', strays, hc, hc', rfl⟩ := reject_cases ht
    have hs := Request.sound_reject (hsound hc) hc'
    exact h.put hc ⟨hs.1, hs.2.keeps⟩ strays
  | renew i =>
    obtain ⟨strays, rfl⟩ := renew_cases ht
    exact h.performed .refl le_rfl strays
  | stray n now answer =>
    obtain ⟨op, book, strays, hclock, hbook, rfl⟩ := stray_cases ht
    exact h.performed (Book.perform_follows hbook) hclock strays

theorem heeded_perform (h : s.Consistent) (hs : ∀ c ∈ s.requests, c.Heeded) {now : T}
    {answer : StoreAnswer} (hkept : s.Kept (.perform i now answer))
    (ht : s.perform i now answer = some t) : ∀ c ∈ t.requests, c.Heeded := by
  obtain ⟨c, op, next, book, hc, hstop, hclock, hbook, rfl⟩ := perform_cases ht
  have hmem := List.mem_of_getElem? hc
  intro d hd
  rcases List.mem_or_eq_of_mem_set hd with hd | rfl
  · exact hs d hd
  constructor
  · intro hrefused
    have hfalse := (hs c hmem).not_refused fun outcome => by
      rw [hstop]
      nofun
    rw [hfalse] at hrefused
    cases hrefused
  · intro op' error hcalling
    obtain ⟨rfl, hanswer, rfl⟩ := Stop.calling.inj hcalling
    obtain rfl := Option.some.inj hanswer
    have hholds := (h.sound c hmem).at hstop
    cases op with
    | begin input => cases hholds.2.2
    | complete input =>
      obtain ⟨-, -, _, hnext⟩ := hholds
      cases hnext
    | abandon input =>
      have hpending : (s.book.pending input.toEntryKey input.reservation now).isSome = true := by
        simpa only [Kept, hc, Option.map_some, hstop] using hkept
      simp only [Book.perform, Book.abandon] at hbook
      rw [hpending] at hbook
      cases hbook
    | renew input => exact hholds.elim

theorem heeded_step [DecidableEq E] (h : s.Consistent) (hs : ∀ c ∈ s.requests, c.Heeded)
    {e : LaneEvent T E} (hkept : s.Kept e) (ht : s.step e = some t) :
    ∀ c ∈ t.requests, c.Heeded := by
  have hput : ∀ {i : ℕ} {c' : Request T E}, c'.Heeded → ∀ c ∈ (s.put i c').requests, c.Heeded := by
    intro i c' hc' d hd
    rcases List.mem_or_eq_of_mem_set hd with hd | rfl
    · exact hs d hd
    · exact hc'
  have hold : ∀ {i : ℕ} {c : Request T E}, s.requests[i]? = some c → c.Sound ∧ c.Heeded :=
    fun hc => ⟨h.sound _ (List.mem_of_getElem? hc), hs _ (List.mem_of_getElem? hc)⟩
  cases e with
  | request route prepared =>
    obtain rfl := Option.some.inj ht
    intro d hd
    rcases List.mem_append.mp hd with hd | hd
    · exact hs d hd
    · obtain rfl := List.mem_singleton.mp hd
      have hnew := (Request.sound_admit route prepared).2
      refine ⟨fun hrefused => ?_, Request.kept_of_asks hnew.asks⟩
      rw [hnew.refused] at hrefused
      cases hrefused
  | abort i =>
    obtain ⟨c, c', hc, hc', rfl⟩ := advance_cases ht
    obtain rfl := Option.some.inj hc'
    exact hput ((hold hc).2.of_same rfl rfl rfl)
  | answer i answer =>
    obtain ⟨c, c', hc, hc', rfl⟩ := advance_cases ht
    have hs := Request.sound_answer (hold hc).1 hc'
    exact hput ((hold hc).2.goesOn hs.2 (Request.answer_open hc'))
  | enter i =>
    obtain ⟨c, c', hc, hc', rfl⟩ := advance_cases ht
    exact hput (Request.heeded_enter (hold hc).2 hc')
  | mark i effect =>
    obtain ⟨c, c', hc, hc', rfl⟩ := advance_cases ht
    obtain ⟨scope, -, rfl⟩ := Option.map_eq_some_iff.mp hc'
    exact hput ((hold hc).2.of_same rfl rfl rfl)
  | perform i now answer => exact heeded_perform h hs hkept ht
  | deliver i =>
    obtain ⟨c, c', hc, hc', rfl⟩ := advance_cases ht
    exact hput (Request.heeded_deliver (hold hc).1 (hold hc).2 hc')
  | reject i error =>
    obtain ⟨c, c', strays, hc, hc', rfl⟩ := reject_cases ht
    have hs := Request.sound_reject (hold hc).1 hc'
    exact hput ((hold hc).2.goesOn hs.2 (Request.reject_open hc'))
  | renew i =>
    obtain ⟨strays, rfl⟩ := renew_cases ht
    exact hs
  | stray n now answer =>
    obtain ⟨op, book, strays, -, -, rfl⟩ := stray_cases ht
    exact hs

omit [Add T] in
theorem Consistent.exclusive (h : s.Consistent) {j : ℕ} {d : Request T E} (hij : i ≠ j)
    (hc : s.requests[i]? = some c) (hd : s.requests[j]? = some d) (hentered : c.entered = true)
    (hentered' : d.entered = true) (hkey : c.entryKey = d.entryKey) :
    ∃ r r', c.reservation = some r ∧ d.reservation = some r' ∧
      (s.book.Precedes r r' ∨ s.book.Precedes r' r) := by
  have hsound := h.sound c (List.mem_of_getElem? hc)
  have hsound' := h.sound d (List.mem_of_getElem? hd)
  obtain ⟨r, hr⟩ := hsound.reserved hentered
  obtain ⟨r', hr'⟩ := hsound'.reserved hentered'
  have hclaim := hsound.claim_of_reservation hr
  have hclaim' := hsound'.claim_of_reservation hr'
  have hne : r ≠ r' := by
    rintro rfl
    exact hij (h.own i j c d r hc hd hclaim hclaim')
  exact ⟨r, r', hr, hr', h.ordered.precedes hne (h.gave i c r hc hclaim)
    (hkey ▸ h.gave j d r' hd hclaim')⟩

end Store

end Lanes

section Results
variable [LinearOrder T] [Add T] [DecidableEq E] {s : Lanes T E}

/-- In every run of any number of requests over one store that keeps its contract: every request
settles its reservation once, never by an `abandon` behind an effect, and stops its heartbeat; two
handlers of one key are entered under reservations of which the one had been abandoned or had
expired when the other was given out; and in a run in which the store keeps the reservation of a
request that throws, every refusal is answered with 503. -/
theorem lane_settles {clock : T} {es : List (LaneEvent T E)}
    (hs : Runs.run Lanes.step (Lanes.init clock) es = some s) :
    (∀ c ∈ s.requests, c.Settles) ∧
    (∀ (i j : ℕ) (c d : Request T E), i ≠ j → s.requests[i]? = some c →
      s.requests[j]? = some d → c.entered = true → d.entered = true → c.entryKey = d.entryKey →
      ∃ r r', c.reservation = some r ∧ d.reservation = some r' ∧
        (s.book.Precedes r r' ∨ s.book.Precedes r' r)) ∧
    (Runs.Along Lanes.step Lanes.Kept (Lanes.init clock) es →
      ∀ c ∈ s.requests, c.AnswersRefusal) := by
  have h : s.Consistent :=
    Runs.run_invariant (fun _ _ _ hs ht => Lanes.Consistent.step hs ht) hs (.init clock)
  refine ⟨fun c hc => (h.sound c hc).settles, ?_, ?_⟩
  · intro i j c d hij hc hd hentered hentered' hkey
    exact h.exclusive hij hc hd hentered hentered' hkey
  · intro hkept c hc
    have hheeded : s.Consistent ∧ ∀ c ∈ s.requests, c.Heeded := by
      refine Runs.run_invariant_along (I := fun s => s.Consistent ∧ ∀ c ∈ s.requests, c.Heeded)
        ?_ hs hkept ⟨.init clock, ?_⟩
      · rintro s e t ⟨hs, hheeded⟩ hkept ht
        exact ⟨hs.step ht, Lanes.heeded_step hs hheeded hkept ht⟩
      · intro c hc
        cases hc
    exact (hheeded.2 c hc).answersRefusal

end Results

def payRoute : Route ℕ ℕ := ⟨1000, some 60, some (js "public:pay"), 1000, 100, id, fun _ => rfl⟩

def payRequest : LaneEvent ℕ ℕ := .request payRoute ⟨none, some (js "order-7"), none⟩

def reserving (i t : ℕ) (reservation : String) : List (LaneEvent ℕ ℕ) :=
  [payRequest, .answer i (.body (.ok (.ok ()))), .answer i (.digest (.ok (js "f"))),
    .perform i t (.begun (.new (js reservation))), .deliver i]

/-- The first request outlives its lease, a second one completes the key, and the first one comes
too late. -/
def lapsedRun : List (LaneEvent ℕ ℕ) :=
  reserving 0 5 "r1" ++ [.enter 0, .mark 0 .began] ++ reserving 1 70 "r2" ++
    [.enter 1, .answer 1 (.program (.ok (emptyResponse 200))), .answer 1 .captured,
      .perform 1 71 (.settled true), .deliver 1,
      .answer 0 (.program (.ok (emptyResponse 200))), .answer 0 .captured,
      .perform 0 72 (.settled false), .deliver 0]

theorem lane_settles_lapsedRun :
    ∃ s : Lanes ℕ ℕ, Runs.run Lanes.step (Lanes.init 0) lapsedRun = some s ∧
      s.requests.map Request.refused = [true, false] ∧
      ∀ c ∈ s.requests, c.Settles ∧ c.AnswersRefusal := by
  have hrun : (Runs.run Lanes.step (Lanes.init 0) lapsedRun).map
      (fun s => s.requests.map Request.refused) = some [true, false] := by
    decide +kernel
  have hkept : Runs.Along Lanes.step Lanes.Kept (Lanes.init 0) lapsedRun := by decide +kernel
  obtain ⟨s, hs, hrefused⟩ := Option.map_eq_some_iff.mp hrun
  obtain ⟨hsettles, -, hanswers⟩ := lane_settles hs
  exact ⟨s, hs, hrefused, fun c hc => ⟨hsettles c hc, hanswers hkept c hc⟩⟩

def thrownRun : List (LaneEvent ℕ ℕ) :=
  reserving 0 5 "r1" ++ [.enter 0, .answer 0 (.program (.error 3)), .perform 0 70 (.settled false),
    .deliver 0]

/-- The refused `abandon` of a request that throws is not answered with 503. -/
theorem refusal_thrownRun :
    ¬ ∀ (es : List (LaneEvent ℕ ℕ)) (s : Lanes ℕ ℕ),
      Runs.run Lanes.step (Lanes.init 0) es = some s → ∀ c ∈ s.requests, c.AnswersRefusal := by
  intro h
  have hrun : ∃ s : Lanes ℕ ℕ, Runs.run Lanes.step (Lanes.init 0) thrownRun = some s ∧
      ∃ c ∈ s.requests, c.refused = true ∧ c.stop = .answered (.error (.thrown 3)) :=
    ⟨_, rfl, _, List.mem_cons_self, rfl, rfl⟩
  obtain ⟨s, hs, c, hc, hrefused, hstop⟩ := hrun
  obtain ⟨response, hresponse, -⟩ := h thrownRun s hs c hc hrefused _ hstop
  cases hresponse

end Nifra.Idempotency
