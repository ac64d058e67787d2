/-
The limit of a server never falls below the connections it is seen to serve,
and only overload feedback newer than the last drop lowers it.
-/
import Aria2Next.HostPool

namespace Aria2Next.HostPool

open Runs OrdMap

universe u v w

variable {Member : Type u} {Host : Type v} {F : Type w}
  [LinearOrder Member] [LinearOrder Host] [Double F]

/-- A call that reports no negative number of transfers. -/
def Call.Counted : Call Member Host → Prop
  | .update _ _ _ _ transferring => 0 ≤ transferring
  | _ => True

instance : DecidablePred (Call.Counted : Call Member Host → Prop)
  | .update _ _ _ _ transferring => inferInstanceAs (Decidable (0 ≤ transferring))
  | .leave _ | .overloaded _ _ _ _ | .tick _ | .allowance _ =>
    inferInstanceAs (Decidable True)

/-- A lowered limit covers the transfers that run. -/
structure LimitsOk (pool : HostPool Member Host) : Prop where
  counted : ∀ member demand, pool.members.find? member = some demand → 0 ≤ demand.transferring
  covers : ∀ host, 0 < pool.limit host → pool.transferringOn host ≤ pool.limit host

theorem limitsOk_empty : LimitsOk ({} : HostPool Member Host) := by
  constructor
  · intro m d hm
    simp at hm
  · intro host hl
    simp [limit] at hl

theorem LimitsOk.transfers_nonneg {p : HostPool Member Host} (ho : LimitsOk p) (host : Host) :
    ∀ e ∈ p.members.entries, 0 ≤ if e.2.host = host then e.2.transferring else 0 := by
  intro e he
  split_ifs
  · exact ho.counted e.1 e.2 ((find?_eq_some_iff _ _ _).mpr he)
  · exact le_rfl

section

variable (pool p : HostPool Member Host)

/-- Storing a demand for one host adds no transfer to another. -/
theorem storeDemand_transferringOn_le (ho : LimitsOk p) (m : Member) {host o : Host}
    (w left on : Int) (hn : host ≠ o) :
    (p.storeDemand m host w left on).transferringOn o ≤ p.transferringOn o := by
  simp only [transferringOn, storeDemand, sum_insert, hn, ↓reduceIte, zero_add]
  exact p.members.sum_erase_le m (ho.transfers_nonneg o)

theorem storeDemand_counted (ho : LimitsOk p) (m : Member) (host : Host) (w left : Int) {on : Int}
    (ht : 0 ≤ on) :
    ∀ o d, (p.storeDemand m host w left on).members.find? o = some d → 0 ≤ d.transferring := by
  intro o d hf
  rw [storeDemand, find?_insert] at hf
  split_ifs at hf with he
  · cases hf
    exact ht
  · exact ho.counted o d hf

theorem raiseLimit_members (host : Host) : (p.raiseLimit host).members = p.members := by
  rw [raiseLimit]
  cases p.hosts.find? host with
  | none => rfl
  | some s =>
    dsimp only
    split_ifs <;> rfl

/-- `raiseLimit` lifts a positive limit to the transfers that run. -/
theorem find?_raiseLimit (host o : Host) :
    (p.raiseLimit host).hosts.find? o = (p.hosts.find? o).map fun s =>
        if o = host ∧ 0 < s.limit then
          { s with limit := max s.limit (p.transferringOn host) }
        else s := by
  cases hf : p.hosts.find? host with
  | none =>
    by_cases he : o = host <;> simp [raiseLimit, hf, he]
  | some s =>
    simp only [raiseLimit, hf]
    by_cases hr : s.limit > 0 ∧ p.transferringOn host > s.limit
    · rw [if_pos hr, find?_insert]
      by_cases he : o = host
      · simp [he, hf, hr.1, max_eq_right hr.2.le]
      · simp [he]
    · rw [if_neg hr]
      by_cases he : o = host
      · have hl : 0 < s.limit → max s.limit (p.transferringOn host) = s.limit :=
          fun hp => max_eq_left (not_lt.mp (not_and.mp hr hp))
        by_cases hp : 0 < s.limit
        · simp [he, hf, hp, hl hp]
        · simp [he, hf, hp]
      · simp [he]

theorem limit_raiseLimit (host o : Host) : (p.raiseLimit host).limit o =
      if o = host ∧ 0 < p.limit host then
        max (p.limit host) (p.transferringOn host)
      else p.limit o := by
  rw [limit, find?_raiseLimit]
  by_cases he : o = host
  · cases hf : p.hosts.find? host with
    | none => simp [he, limit, hf]
    | some s =>
      by_cases hp : 0 < s.limit <;> simp [he, limit, hf, hp]
  · cases hf : p.hosts.find? o with
    | _ => simp [he, limit, hf]

theorem update_limitsOk (ho : LimitsOk p) (m : Member) (host : Host) (w left on : Int)
    (ht : 0 ≤ on) : LimitsOk (p.update m host w left on) := by
  have hm := raiseLimit_members (p.storeDemand m host w left on) host
  constructor
  · rw [update, hm]
    exact storeDemand_counted p ho m host w left ht
  · intro o hl
    have hto : (p.update m host w left on).transferringOn o = (p.storeDemand m host
          w left on).transferringOn o := by
      rw [transferringOn, transferringOn, update, hm]
    rw [hto]
    rw [update, limit_raiseLimit] at hl ⊢
    by_cases he : o = host
    · subst he
      split_ifs at hl ⊢ with hp
      · exact le_max_right _ _
      · exact absurd ⟨rfl, hl⟩ hp
    · simp only [he, false_and, ↓reduceIte] at hl ⊢
      have hle := storeDemand_transferringOn_le p ho m w
        left on (Ne.symm he)
      exact hle.trans (ho.covers o hl)

theorem leave_transferringOn_le (ho : LimitsOk p) (m : Member) (host : Host) :
    (p.leave m).transferringOn host ≤ p.transferringOn host := by
  rw [leave]
  cases p.members.find? m with
  | none => exact le_rfl
  | some d =>
    exact p.members.sum_erase_le m (ho.transfers_nonneg host)

/-- A host entry that `leave` keeps is the old one. -/
theorem find?_leave (m : Member) (host : Host) : (p.leave m).hosts.find? host = p.hosts.find? host ∨
      (p.leave m).hosts.find? host = none ∧ usedBy (p.leave m).members host = false := by
  rw [leave]
  cases p.members.find? m with
  | none => exact .inl rfl
  | some d =>
    dsimp only
    split_ifs with hu
    · exact .inl rfl
    · rw [find?_erase]
      split_ifs with he
      · rw [he]
        exact .inr ⟨rfl, by simpa using hu⟩
      · exact .inl rfl

theorem leave_limitsOk (ho : LimitsOk p) (m : Member) : LimitsOk (p.leave m) := by
  constructor
  · intro o d hf
    rw [leave] at hf
    cases hm : p.members.find? m with
    | none =>
      rw [hm] at hf
      exact ho.counted o d hf
    | some old =>
      simp only [hm, find?_erase] at hf
      split_ifs at hf
      exact ho.counted o d hf
  · intro host hl
    have hle := leave_transferringOn_le p ho m host
    rcases find?_leave p m host with hs | ⟨hg, _⟩
    · rw [limit, hs] at hl ⊢
      exact hle.trans (ho.covers host hl)
    · simp [limit, hg] at hl

theorem find?_overloaded (m : Member) (s now r : Int) (host : Host) :
    (p.overloaded m s now r).hosts.find? host = p.hosts.find? host ∨
      (∃ d, p.members.find? m = some d ∧ d.host = host) ∧
      (p.overloaded m s now r).hosts.find? host =
        some (refuse ((p.hosts.find? host).getD {}) (p.transferringOn host) s now r) := by
  cases hm : p.members.find? m with
  | none => simp [overloaded, hm]
  | some d =>
    simp only [overloaded, hm, find?_insert]
    split_ifs with he
    · rw [he]
      exact .inr ⟨⟨d, rfl, rfl⟩, rfl⟩
    · exact .inl rfl

/-- `overloaded` sets the limit of the member's host to what runs, unless a
later drop has answered the request. -/
theorem limit_overloaded (m : Member) (s now r : Int) (host : Host) :
    (p.overloaded m s now r).limit host = p.limit host ∨
      (p.overloaded m s now r).limit host = max 1 (p.transferringOn host) ∧
        (∃ d, p.members.find? m = some d ∧ d.host = host) ∧
        answered ((p.hosts.find? host).getD {}) s = false := by
  rcases find?_overloaded p m s now r host with
    hs | ⟨hm, hr⟩
  · rw [limit, hs]
    exact .inl rfl
  · have hl := p.limit_eq_getD host
    rw [limit, hr]
    simp only [refuse_limit]
    split_ifs with ha
    · exact .inl hl.symm
    · exact .inr ⟨rfl, hm, by simpa using ha⟩

theorem overloaded_limitsOk (ho : LimitsOk p) (m : Member) (s now r : Int) :
    LimitsOk (p.overloaded m s now r) := by
  have hm := overloaded_members p m s now r
  constructor
  · rw [hm]
    exact ho.counted
  · intro host hl
    have ht : (p.overloaded m s now r).transferringOn host = p.transferringOn host := by
      rw [transferringOn, transferringOn, hm]
    rw [ht]
    rcases limit_overloaded p m s now r host with hs | ⟨hdr, _⟩
    · rw [hs] at hl ⊢
      exact ho.covers host hl
    · rw [hdr]
      exact le_max_right _ _

/-- What `tick` does to a limit: it stays, gains one connection, is lifted,
or goes with a server nobody uses. -/
theorem limit_tick (now : Int) (host : Host) :
    (p.tick now).limit host = p.limit host ∨ (0 < p.limit host ∧
        (p.tick now).limit host = p.limit host + 1) ∨
      ((p.tick now).limit host = 0 ∧ p.wantedOn host ≤ p.limit host + 1) ∨
      ((p.tick now).hosts.find? host = none ∧ usedBy p.members host = false) := by
  by_cases hu : usedBy p.members host = true
  · cases hf : p.hosts.find? host with
    | none => simp [limit, find?_tick, hu, hf]
    | some s =>
      by_cases hc : calm now s = true
      · have hp : 0 < s.limit := by
          rw [calm, Bool.and_eq_true, decide_eq_true_iff] at hc
          exact hc.1
        by_cases hl : s.limit + 1 ≥ p.wantedOn host
        · simp [limit, find?_tick, hu, hf, recover, hc, hl]
        · simp [limit, find?_tick, hu, hf, recover, hc, hl, hp]
      · simp [limit, find?_tick, hu, hf, recover, hc]
  · simp [find?_tick, hu]

theorem tick_limitsOk (ho : LimitsOk p) (now : Int) : LimitsOk (p.tick now) := by
  refine ⟨ho.counted, fun host hl => ?_⟩
  change p.transferringOn host ≤ (p.tick now).limit host
  rcases limit_tick p now host with
    hs | ⟨hp, hm⟩ | ⟨hli, _⟩ | ⟨hg, _⟩
  · rw [hs] at hl ⊢
    exact ho.covers host hl
  · rw [hm]
    exact (ho.covers host hp).trans (Int.le.intro 1 rfl)
  · rw [hli] at hl
    exact absurd hl (lt_irrefl 0)
  · simp [limit, hg] at hl

theorem allowance_members (m : Member) :
    (p.allowance F m).2.members = p.members ∧ (p.allowance F m).2.hosts = p.hosts := by
  rw [allowance]
  cases p.members.find? m with
  | none => exact ⟨rfl, rfl⟩
  | some d => exact p.refresh_members

theorem allowance_limitsOk (ho : LimitsOk p) (m : Member) : LimitsOk (p.allowance F m).2 := by
  obtain ⟨hm, hh⟩ := p.allowance_members (F := F) m
  constructor
  · rw [hm]
    exact ho.counted
  · simp only [limit, transferringOn, hm, hh]
    exact ho.covers

theorem step_limitsOk (c : Call Member Host) (ho : LimitsOk p) (hc : c.Counted) :
    LimitsOk (step F p c) := by
  cases c with
  | update m host w left on =>
    exact update_limitsOk p ho m host w left on hc
  | leave m => exact leave_limitsOk p ho m
  | overloaded m s now r =>
    exact overloaded_limitsOk p ho m s now r
  | tick now => exact tick_limitsOk p ho now
  | allowance m => exact allowance_limitsOk p ho m

/-- The calls that may lower the limit of a host. -/
inductive LowersLimit (F : Type w) [Double F] (pool : HostPool Member Host)
    (host : Host) : Call Member Host → Prop
  /-- Feedback about a request sent no earlier than the last drop. -/
  | overloaded {member demand state sent} (now readyAt : Int)
      (hmember : pool.members.find? member = some demand)
      (hhost : demand.host = host)
      (hstate : pool.hosts.find? host = some state)
      (hsent : state.dropped ≤ sent) :
      LowersLimit F pool host (.overloaded member sent now readyAt)
  /-- A limit the wishes no longer reach is lifted. -/
  | lifted (now : Int) (hlifted : (pool.tick now).limit host = 0)
      (hwanted : pool.wantedOn host ≤ pool.limit host + 1) :
      LowersLimit F pool host (.tick now)
  /-- The host has no member left. -/
  | forgotten {call} (hgone : (step F pool call).hosts.find? host = none)
      (hunused : usedBy (step F pool call).members host = false) :
      LowersLimit F pool host call

theorem update_limit_ge (m : Member) (host o : Host) (w left on : Int) :
    p.limit o ≤ (p.update m host w left on).limit o := by
  rw [update, limit_raiseLimit]
  split_ifs with hr
  · rw [hr.1]
    exact le_max_left _ _
  · exact le_rfl

theorem step_lowersLimit (call : Call Member Host) (host : Host)
    (hl : (step F p call).limit host < p.limit host) : LowersLimit F p host call := by
  cases call with
  | update m o w left on =>
    have hge := update_limit_ge p m o host w left on
    exact absurd hl (not_lt.mpr hge)
  | leave m =>
    rcases find?_leave p m host with hs | ⟨hg, hu⟩
    · change (p.leave m).limit host < p.limit host at hl
      rw [limit, hs] at hl
      exact absurd hl (lt_irrefl _)
    · exact .forgotten hg hu
  | overloaded m sent now r =>
    change (p.overloaded m sent now r).limit host < p.limit host at hl
    rcases limit_overloaded p m sent now r host with
      hs | ⟨hdr, ⟨d, hm, hho⟩, ha⟩
    · exact absurd hl (hs ▸ lt_irrefl _)
    · rw [hdr, limit] at hl
      cases hst : p.hosts.find? host with
      | none => simp [hst] at hl
      | some state =>
        simp only [hst] at hl
        have hp : 0 < state.limit := (zero_lt_one.trans_le (le_max_left 1 _)).trans hl
        simp only [answered, hst, Option.getD_some, hp,
          decide_true, Bool.true_and, decide_eq_false_iff_not, not_lt] at ha
        exact LowersLimit.overloaded now r hm hho hst ha
  | tick now =>
    change (p.tick now).limit host < p.limit host at hl
    rcases limit_tick p now host with
      hs | ⟨_, hmo⟩ | ⟨hli, hw⟩ | ⟨hg, hu⟩
    · exact absurd hl (hs ▸ lt_irrefl _)
    · omega
    · exact .lifted now hli hw
    · exact .forgotten hg hu
  | allowance m =>
    have hh := (p.allowance_members (F := F) m).2
    change (p.allowance F m).2.limit host < p.limit host at hl
    rw [limit, hh] at hl
    exact absurd hl (lt_irrefl _)

/-- The time a host asked to be left alone until never moves back. -/
theorem step_readyAt_le (c : Call Member Host) (host : Host) {b a : HostState}
    (hb : p.hosts.find? host = some b) (ha : (step F p c).hosts.find? host = some a) :
    b.readyAt ≤ a.readyAt := by
  cases c with
  | update m o w left on =>
    change (p.update m o w left on).hosts.find? host = some a at ha
    rw [update, find?_raiseLimit] at ha
    change (p.hosts.find? host).map _ = some a at ha
    simp only [hb, Option.map_some, Option.some.injEq] at ha
    rw [← ha]
    split_ifs <;> exact le_rfl
  | leave m =>
    change (p.leave m).hosts.find? host = some a at ha
    rcases find?_leave p m host with hs | ⟨hg, _⟩
    · rw [hs, hb] at ha
      cases ha
      exact le_rfl
    · rw [hg] at ha
      contradiction
  | overloaded m s now r =>
    change (p.overloaded m s now r).hosts.find? host = some a at ha
    rcases find?_overloaded p m s now r host with
      hs | ⟨_, hr⟩
    · rw [hs, hb] at ha
      cases ha
      exact le_rfl
    · rw [hr, hb] at ha
      cases ha
      exact refuse_readyAt_ge b _ s now r
  | tick now =>
    change (p.tick now).hosts.find? host = some a at ha
    rw [find?_tick, hb] at ha
    split_ifs at ha
    simp only [Option.map_some, Option.some.injEq] at ha
    rw [← ha, recover]
    by_cases hc : calm now b = true <;> simp [hc]
  | allowance m =>
    have hh := (p.allowance_members (F := F) m).2
    change (p.allowance F m).2.hosts.find? host = some a at ha
    rw [hh, hb] at ha
    cases ha
    exact le_rfl

end

/-- After any calls that report no negative number of transfers, every
positive limit covers the transfers on its host; the next call lowers a limit
only as `LowersLimit` says, and moves no `readyAt` back. -/
theorem run_limits_cover_transfers (calls : List (Call Member Host))
    (hcounted : ∀ call ∈ calls, call.Counted) :
    let pool := run (step F) ({} : HostPool Member Host) calls
    (∀ host, 0 < pool.limit host → pool.transferringOn host ≤ pool.limit host) ∧ ∀ call host,
        ((step F pool call).limit host < pool.limit host → LowersLimit F pool host call) ∧
        ∀ before after, pool.hosts.find? host = some before →
          (step F pool call).hosts.find? host = some after → before.readyAt ≤ after.readyAt := by
  have hok : LimitsOk (run (step F) ({} : HostPool Member Host) calls) :=
    run_invariant (fun pool call hok hcall => step_limitsOk pool call hok hcall)
      limitsOk_empty (meets_of_forall hcounted)
  refine ⟨hok.covers, fun call host => ⟨step_lowersLimit _ call host, ?_⟩⟩
  intro before after hbefore hafter
  exact step_readyAt_le _ call host hbefore hafter

/-- A server that refuses at two transfers and then serves three. -/
theorem run_limits_cover_three_transfers : let calls : List (Call Nat Nat) :=
      [.update 1 7 4 100 2, .overloaded 1 0 10 0, .update 1 7 4 100 3]
    let pool := run (step ℚ) ({} : HostPool Nat Nat) calls
    (∀ call ∈ calls, call.Counted) ∧ pool.limit 7 = 3 ∧ pool.transferringOn 7 ≤ pool.limit 7 :=
  ⟨by decide, by decide, (run_limits_cover_transfers _ (by decide)).1 7 (by decide)⟩

end Aria2Next.HostPool
