import Monitoring.Client.GuestTimer

/-!
# `Monitoring.Proofs.GuestTimer`: the warnings, and the logoff after two hours

`displayMsgbox_cases` says once what a pass can do, and `branch_cases` which flags a branch needs.
From them `chained_run` follows by induction over the history: the flags are set one after the
other, and `expired` is never left set.

A guest is logged off only by a pass that finds all three flags set. The windows of the warnings
are in the past for a guest whose two hours are over, so a pass that finds him sets no flag. He is
logged off by the next pass or not at all, and `guestLimit_iff` is the statement for every history.

The flags may also have been set for someone else. `kick_warned` is the other law of the loop: if
every warning after the first goes to the guest who got the warning before it, then a guest who is
logged off has had all three. `warned_step` carries it.
-/

set_option autoImplicit false

namespace Monitoring.Client

open Monitoring.Lib

/-! ### One pass -/

/-- A pass that finds nobody clears the flags; one that finds a guest for the first time stores the
clock; one that takes a branch sets or clears its flags. Every other pass changes nothing. -/
theorem displayMsgbox_cases (s : GuestTimer) (p : Poll) :
    (s.warning p = none ∧ p.guest = none ∧ displayMsgbox s p =
      { s with fifteen := false, five := false, one := false, expired := false }) ∨
    (s.warning p = none ∧ displayMsgbox s p = s) ∨
    (∃ u, s.warning p = none ∧ p.guest = some u ∧ s.guestExpiration.lookup u = none ∧
      displayMsgbox s p =
        { s with guestExpiration := s.guestExpiration.insertNew u p.clock }) ∨
    (∃ u t b, s.warning p = some b ∧ p.guest = some u ∧ s.guestExpiration.lookup u = some t ∧
      s.branch t p.clock = some b ∧
      displayMsgbox s p = { s.setFlag b with log := s.log ++ [(b, u)] }) := by
  unfold displayMsgbox GuestTimer.warning Poll.guest
  by_cases hnobody : p.currentUsers.length > 0
  · rw [if_pos hnobody]
    dsimp only
    by_cases huser : getCurrentLocalUser p.currentUsers ≠ []
    · by_cases hgp : matchesGp (getCurrentLocalUser p.currentUsers) = true
      · rw [if_pos huser, if_pos hgp, if_pos ⟨huser, hgp⟩]
        cases hlookup : s.guestExpiration.lookup (getCurrentLocalUser p.currentUsers) with
        | none => simp [hlookup]
        | some t =>
            cases hbranch : s.branch t p.clock with
            | none => simp [hlookup, hbranch]
            | some b => simp [hlookup, hbranch]
      · simp [huser, hgp]
    · simp [huser]
  · have hnil : p.currentUsers = [] := List.length_eq_zero_iff.mp (by omega)
    simp [hnil, getCurrentLocalUser]

/-- The flags a branch needs, and the time the last one needs. -/
theorem branch_cases {s : GuestTimer} {t current : Int} {b : Warning}
    (h : s.branch t current = some b) :
    (b = .fifteen ∧ s.fifteen = false) ∨
    (b = .five ∧ s.fifteen = true ∧ s.five = false) ∨
    (b = .one ∧ s.fifteen = true ∧ s.five = true ∧ s.one = false) ∨
    (b = .expired ∧ (s.fifteen = true ∧ s.five = true ∧ s.one = true) ∧
      t + msgExpired ≤ current) := by
  simp only [GuestTimer.branch] at h
  split at h
  · rename_i hc
    cases h
    simp only [Bool.and_eq_true, Bool.not_eq_true'] at hc
    exact Or.inl ⟨rfl, hc.1⟩
  · split at h
    · rename_i hc
      cases h
      simp only [Bool.and_eq_true, Bool.not_eq_true'] at hc
      exact Or.inr (Or.inl ⟨rfl, hc.1.1, hc.1.2⟩)
    · split at h
      · rename_i hc
        cases h
        simp only [Bool.and_eq_true, Bool.not_eq_true'] at hc
        exact Or.inr (Or.inr (Or.inl ⟨rfl, hc.1.1.1, hc.1.1.2, hc.1.2⟩))
      · split at h
        · rename_i hc
          cases h
          simp only [Bool.and_eq_true, decide_eq_true_eq] at hc
          exact Or.inr (Or.inr (Or.inr ⟨rfl, ⟨hc.1.1.1.1, hc.1.1.1.2, hc.1.1.2⟩, hc.2⟩))
        · cases h

/-- After two hours only the last branch is left. -/
theorem branch_overdue {s : GuestTimer} {t current : Int} (hexpired : s.expired = false)
    (h : t + 7200 < current) :
    s.branch t current =
      if s.fifteen ∧ s.five ∧ s.one then some .expired else none := by
  -- the three windows end at or before `t + msgExpired`
  have h15 : ¬ current ≤ t + msgFive := by unfold msgFive; omega
  have h5 : ¬ current ≤ t + msgOne := by unfold msgOne; omega
  have h1 : ¬ current ≤ t + msgExpired := by unfold msgExpired; omega
  have h0 : t + msgExpired ≤ current := by unfold msgExpired; omega
  simp [GuestTimer.branch, h15, h5, h1, h0, hexpired, and_assoc]

/-! ### The flags -/

/-- The flags are set one after the other, and `expired` only inside a pass. -/
structure Chained (s : GuestTimer) : Prop where
  five : s.five = true → s.fifteen = true
  one : s.one = true → s.five = true
  expired : s.expired = false

theorem chained_step {s t : GuestTimer} {p : Poll} (hs : Chained s)
    (h : pollStep s p = some t) : Chained t := by
  cases h
  obtain ⟨-, -, hpass⟩ | ⟨-, hpass⟩ | ⟨u, -, -, -, hpass⟩ | ⟨u, t, b, -, -, -, hbranch, hpass⟩ :=
    displayMsgbox_cases s p <;> rw [hpass]
  · exact ⟨(nomatch ·), (nomatch ·), rfl⟩
  · exact hs
  · exact ⟨hs.five, hs.one, hs.expired⟩
  · rcases branch_cases hbranch with ⟨rfl, -⟩ | ⟨rfl, h15, -⟩ | ⟨rfl, -, h5, -⟩ | ⟨rfl, -, -⟩
    -- `fifteen` is set: no flag depends on its being clear
    · exact ⟨fun _ => rfl, hs.one, hs.expired⟩
    · exact ⟨fun _ => h15, fun _ => rfl, hs.expired⟩
    · exact ⟨hs.five, fun _ => h5, hs.expired⟩
    · exact ⟨(nomatch ·), (nomatch ·), rfl⟩

theorem chained_start : Chained GuestTimer.start := ⟨by decide, by decide, rfl⟩

/-- The flags of every reachable state are chained. -/
theorem chained_run {polls : List Poll} {s : GuestTimer}
    (h : run pollStep polls GuestTimer.start = some s) : Chained s :=
  run_invariant (fun _ _ _ => chained_step) chained_start h

/-! ### The time limit -/

/-- The pass finds the guest `u`, more than two hours after GUEST_EXPIRATION[u]. -/
def Overdue (s : GuestTimer) (p : Poll) (u : Bytes) : Prop :=
  p.guest = some u ∧ ∃ t, s.guestExpiration.lookup u = some t ∧ t + 7200 < p.clock

/-- `p` and `q` are consecutive polls of the history; the loop is in `s` before `p` and in `t`
between them. -/
def Consecutive (polls : List Poll) (s : GuestTimer) (p : Poll) (t : GuestTimer) (q : Poll) :
    Prop :=
  ∃ pre post, polls = pre ++ p :: q :: post ∧ run pollStep pre GuestTimer.start = some s ∧
    pollStep s p = some t

/-- What the loop does about a guest whose time is over. -/
theorem warning_overdue {s : GuestTimer} {p : Poll} {u : Bytes} (hs : Chained s)
    (h : Overdue s p u) :
    s.warning p = if s.fifteen ∧ s.five ∧ s.one then some .expired else none := by
  obtain ⟨hguest, t, hlookup, hover⟩ := h
  unfold GuestTimer.warning
  rw [hguest, Option.bind_some, hlookup, Option.bind_some, branch_overdue hs.expired hover]

/-- He is logged off at once or the loop does not change. -/
theorem displayMsgbox_overdue {s : GuestTimer} {p : Poll} {u : Bytes} (hs : Chained s)
    (h : Overdue s p u) (hkick : ¬ s.kicks p) : displayMsgbox s p = s := by
  have hwarning := warning_overdue hs h
  obtain ⟨-, hguest, -⟩ | ⟨-, hpass⟩ | ⟨v, -, hguest, hnew, -⟩ | ⟨v, t, b, hb, -, -, -, -⟩ :=
    displayMsgbox_cases s p
  · have hu := h.1
    rw [hguest] at hu
    cases hu
  · exact hpass
  · obtain ⟨hu, t, hlookup, -⟩ := h
    rw [hguest] at hu
    cases hu
    rw [hnew] at hlookup
    cases hlookup
  · -- the only branch left is the one that logs off
    rw [hb] at hwarning
    split at hwarning
    · exact absurd (hb.trans hwarning) hkick
    · cases hwarning

/-- For every history of the loop: of any two consecutive polls that find the same guest after his
two hours one logs him off, exactly if at the first of them all three flags are set. -/
theorem guestLimit_iff (polls : List Poll) :
    (∀ s p t q u, Consecutive polls s p t q → Overdue s p u → Overdue t q u →
      s.kicks p ∨ t.kicks q) ↔
    ∀ s p t q u, Consecutive polls s p t q → Overdue s p u → Overdue t q u →
      s.fifteen = true ∧ s.five = true ∧ s.one = true := by
  refine forall₅_congr fun s p t q u => forall₃_congr fun hpolls hp hq => ?_
  obtain ⟨pre, post, -, hrun, hstep⟩ := hpolls
  cases hstep
  -- `p` decides: what `q` finds is the state that `p` leaves
  have hs : Chained s := chained_run hrun
  by_cases hflags : s.fifteen = true ∧ s.five = true ∧ s.one = true
  · have hkick : s.kicks p := (warning_overdue hs hp).trans (if_pos hflags)
    exact ⟨fun _ => hflags, fun _ => Or.inl hkick⟩
  · have hwarning : s.warning p = none := (warning_overdue hs hp).trans (if_neg hflags)
    have hkick : ¬ s.kicks p := by
      unfold GuestTimer.kicks
      rw [hwarning]
      exact fun h => nomatch h
    -- so the second poll finds the same flags
    rw [displayMsgbox_overdue hs hp hkick] at hq ⊢
    have hkick' : ¬ s.kicks q := by
      unfold GuestTimer.kicks
      rw [warning_overdue hs hq, if_neg hflags]
      exact fun h => nomatch h
    exact ⟨fun h => (h.elim hkick hkick').elim, fun h => absurd h hflags⟩

/-- `gp1` logs in, is gone a minute later, and comes back after more than two hours. -/
def returningGuest : List Poll :=
  let gp1 := [⟨[ch 'g', ch 'p', ch '1'], true⟩]
  [⟨gp1, 0⟩, ⟨[], 60⟩, ⟨gp1, 8000⟩, ⟨gp1, 8060⟩]

/-- No window of a warning is left for him, and no pass logs him off. -/
theorem guestLimit_fails :
    returningGuest.Pairwise (fun p q => p.clock < q.clock) ∧
    ∃ s p t q u, Consecutive returningGuest s p t q ∧ Overdue s p u ∧ Overdue t q u ∧
      ¬ s.kicks p ∧ ¬ t.kicks q := by
  refine ⟨by decide, _, _, _, _, [ch 'g', ch 'p', ch '1'],
    ⟨returningGuest.take 2, [], rfl, rfl, rfl⟩, ⟨by decide, 0, by decide, by decide⟩,
    ⟨by decide, 0, by decide, by decide⟩, by decide, by decide⟩

/-! ### The warnings -/

/-- The warnings the flags stand for. -/
def GuestTimer.warned (s : GuestTimer) : List Warning :=
  (if s.fifteen then [.fifteen] else []) ++ (if s.five then [.five] else []) ++
    (if s.one then [.one] else [])

/-- A warning after the first goes to the guest who got the one before it. -/
def SameGuest (s : GuestTimer) (p : Poll) : Prop :=
  s.warning p = none ∨ s.warning p = some .fifteen ∨ s.log.getLast?.map Prod.snd = p.guest

instance (s : GuestTimer) (p : Poll) : Decidable (SameGuest s p) :=
  inferInstanceAs (Decidable (_ ∨ _ ∨ _))

/-- The warnings the flags stand for are the last ones of the log, and went to one guest. -/
structure Warned (s : GuestTimer) : Prop where
  chained : Chained s
  logged : ∃ u, s.warned.map (·, u) <:+ s.log

/-- One more entry on both sides. -/
theorem suffix_snoc {α : Type} {xs ys : List α} (a : α) (h : xs <:+ ys) :
    xs ++ [a] <:+ ys ++ [a] := by
  obtain ⟨pre, rfl⟩ := h
  exact ⟨pre, by rw [List.append_assoc]⟩

/-- The last entry of the log is for the guest of the flags that are set. -/
theorem getLast_log {s : GuestTimer} {u : Bytes} (h15 : s.fifteen = true)
    (h : s.warned.map (·, u) <:+ s.log) : s.log.getLast?.map Prod.snd = some u := by
  obtain ⟨pre, hlog⟩ := h
  rw [← hlog]
  cases h5 : s.five <;> cases h1 : s.one <;> simp [GuestTimer.warned, h15, h5, h1]

theorem warned_step {s t : GuestTimer} {p : Poll} (hs : Warned s) (hok : SameGuest s p)
    (h : pollStep s p = some t) : Warned t := by
  refine ⟨chained_step hs.chained h, ?_⟩
  obtain ⟨v, hv⟩ := hs.logged
  cases h
  obtain ⟨-, -, hpass⟩ | ⟨-, hpass⟩ | ⟨u, -, -, -, hpass⟩ |
    ⟨u, t, b, hb, hguest, -, hbranch, hpass⟩ := displayMsgbox_cases s p <;> rw [hpass]
  · exact ⟨v, List.nil_suffix⟩
  · exact ⟨v, hv⟩
  · exact ⟨v, hv⟩
  · -- unless it is the first warning, `u` is the guest the flags were set for
    have hsame : b ≠ .fifteen → s.fifteen = true → v = u := by
      intro hne h15
      rcases hok with hw | hw | hw
      · rw [hb] at hw
        cases hw
      · rw [hb] at hw
        cases hw
        exact absurd rfl hne
      · rw [getLast_log h15 hv, hguest] at hw
        exact Option.some.inj hw
    rcases branch_cases hbranch with ⟨rfl, h15⟩ | ⟨rfl, h15, h5⟩ | ⟨rfl, h15, h5, h1⟩ |
      ⟨rfl, ⟨h15, -, -⟩, -⟩
    · have h5 : s.five = false := by
        by_contra h
        exact absurd (hs.chained.five (by simpa using h)) (by simp [h15])
      have h1 : s.one = false := by
        by_contra h
        exact absurd (hs.chained.one (by simpa using h)) (by simp [h5])
      -- no flag was set, so the log may be about anybody
      refine ⟨u, s.log, ?_⟩
      simp [GuestTimer.warned, GuestTimer.setFlag, h5, h1]
    · obtain rfl := hsame (by decide) h15
      have h1 : s.one = false := by
        by_contra h
        exact absurd (hs.chained.one (by simpa using h)) (by simp [h5])
      refine ⟨v, ?_⟩
      simpa [GuestTimer.warned, GuestTimer.setFlag, h15, h5, h1]
        using suffix_snoc (Warning.five, v) hv
    · obtain rfl := hsame (by decide) h15
      refine ⟨v, ?_⟩
      simpa [GuestTimer.warned, GuestTimer.setFlag, h15, h5, h1]
        using suffix_snoc (Warning.one, v) hv
    · exact ⟨u, List.nil_suffix⟩

theorem warned_start : Warned GuestTimer.start := ⟨chained_start, [], List.nil_suffix⟩

/-- If the pass logs off, it finds a guest two hours after GUEST_EXPIRATION or later, and he has
been shown the three warnings in this order. -/
def KickWarned (s : GuestTimer) (p : Poll) : Prop :=
  s.kicks p → ∃ u t, p.guest = some u ∧ s.guestExpiration.lookup u = some t ∧
    t + 7200 ≤ p.clock ∧ List.Sublist [(.fifteen, u), (.five, u), (.one, u)] s.log

theorem kickWarned_of_warned {s : GuestTimer} {p : Poll} (hs : Warned s) (hok : SameGuest s p) :
    KickWarned s p := by
  intro hkick
  unfold GuestTimer.kicks at hkick
  obtain ⟨hnone, -⟩ | ⟨hnone, -⟩ | ⟨u, hnone, -⟩ | ⟨u, t, b, hb, hguest, hlookup, hbranch, -⟩ :=
    displayMsgbox_cases s p
  · rw [hnone] at hkick
    cases hkick
  · rw [hnone] at hkick
    cases hkick
  · rw [hnone] at hkick
    cases hkick
  · rw [hb] at hkick
    cases hkick
    obtain ⟨h, -⟩ | ⟨h, -⟩ | ⟨h, -⟩ | ⟨-, ⟨h15, h5, h1⟩, htime⟩ := branch_cases hbranch
    · cases h
    · cases h
    · cases h
    · refine ⟨u, t, hguest, hlookup, htime, ?_⟩
      obtain ⟨v, hv⟩ := hs.logged
      have hlast : s.log.getLast?.map Prod.snd = p.guest := by
        rcases hok with hw | hw | hw
        · rw [hb] at hw
          cases hw
        · rw [hb] at hw
          cases hw
        · exact hw
      obtain rfl : v = u := by
        rw [getLast_log h15 hv, hguest] at hlast
        exact Option.some.inj hlast
      simpa [GuestTimer.warned, h15, h5, h1] using hv.sublist

/-- In every history whose warnings after the first go to the guest who got the one before, every
logoff is warned of. -/
theorem kick_warned {polls : List Poll}
    (hok : AllSteps pollStep SameGuest polls GuestTimer.start) :
    AllSteps pollStep KickWarned polls GuestTimer.start :=
  allSteps_of_invariant (fun _ _ _ => warned_step) (fun _ _ => kickWarned_of_warned)
    warned_start hok

/-- `gp1` stays for two hours. -/
def stayingGuest : List Poll :=
  let gp1 := [⟨[ch 'g', ch 'p', ch '1'], true⟩]
  [⟨gp1, 0⟩, ⟨gp1, 6300⟩, ⟨gp1, 6901⟩, ⟨gp1, 7141⟩, ⟨gp1, 7200⟩]

theorem kick_warned_staying :
    AllSteps pollStep KickWarned stayingGuest GuestTimer.start ∧
    ∃ s p, run pollStep (stayingGuest.take 4) GuestTimer.start = some s ∧
      stayingGuest[4]? = some p ∧ s.kicks p :=
  ⟨kick_warned (by decide), _, _, rfl, rfl, by decide⟩

/-- `gp2` was here first. `gp1` gets the three warnings, and then `gp2` is back before a poll
finds nobody. -/
def guestsInTurn : List Poll :=
  let gp1 := [⟨[ch 'g', ch 'p', ch '1'], true⟩]
  let gp2 := [⟨[ch 'g', ch 'p', ch '2'], true⟩]
  [⟨gp2, 0⟩, ⟨gp1, 10⟩, ⟨gp1, 6400⟩, ⟨gp1, 7000⟩, ⟨gp1, 7160⟩, ⟨gp2, 7300⟩]

/-- `gp2` is logged off, and has never been warned. -/
theorem kick_warned_fails :
    guestsInTurn.Pairwise (fun p q => p.clock < q.clock) ∧
    ∃ s p, run pollStep (guestsInTurn.take 5) GuestTimer.start = some s ∧
      guestsInTurn[5]? = some p ∧ s.kicks p ∧ ¬ KickWarned s p := by
  refine ⟨by decide, _, _, rfl, rfl, by decide, fun h => ?_⟩
  obtain ⟨u, t, hguest, -, -, hlog⟩ := h (by decide)
  cases hguest
  have hmem := hlog.subset (List.mem_cons_self ..)
  exact absurd hmem (by decide)

end Monitoring.Client
