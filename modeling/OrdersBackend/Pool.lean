import OrdersBackend.SystemSound

/-!
# The connection pool

A call takes a further connection while it holds its query runner. As long as
fewer calls than connections are in flight, some holder can go on.
-/

namespace OrdersBackend

open Conc

variable {cfg : Config} {c : Catalogue} {conf : SysConf}

/-- `t` is a call that has arrived and has neither ended nor died. -/
def inFlight (conf : SysConf) (t : Tid) : Prop :=
  (∃ cmd k, conf.threads t = .running (.await cmd k)) ∧ ∃ req, conf.world.jobs t = some (.create req)

def waits (conf : SysConf) (t : Tid) : Prop := ∃ use k, conf.threads t = .running (.await (.acquire use) k)

/-- All connections are held by calls that wait for another one. -/
def Deadlocked (cfg : Config) (conf : SysConf) : Prop :=
  (conf.world.pool .api).length = cfg.poolSize .api ∧
    ∀ t ∈ conf.world.pool .api, inFlight conf t ∧ waits conf t

def InFlightAtMost (n : Nat) (conf : SysConf) : Prop := ∃ ts : List Tid, ts.length ≤ n ∧
    ∀ t, inFlight conf t → t ∈ ts

theorem nodup_of_waits (h : Reachable cfg c conf) (hw : ∀ t ∈ conf.world.pool .api, waits conf t) :
    (conf.world.pool .api).Nodup := by
  refine List.nodup_iff_count_le_one.mpr fun t => ?_
  by_cases ht : t ∈ conf.world.pool .api
  · obtain ⟨use, k, hth⟩ := hw t ht
    exact Nat.le_of_eq (h.ready hth).2.1
  · rw [List.count_eq_zero.mpr ht]; exact Nat.zero_le 1

theorem no_deadlock (h : Reachable cfg c conf) {n : Nat} (hn : n < cfg.poolSize .api)
    (hf : InFlightAtMost n conf) :
    ¬ Deadlocked cfg conf := by
  rintro ⟨hfull, hw⟩
  obtain ⟨ts, hlen, hts⟩ := hf
  have hnodup := nodup_of_waits h fun t ht => (hw t ht).2
  have hle := (List.subperm_of_subset hnodup fun t ht => hts t (hw t ht).1).length_le
  omega

/-- A call has its payment, with one connection in the pool. -/
theorem deadlock_of_one :
    Deadlocked (.ofPool 1 .repository) ((Catalogue.shop 3).after (.ofPool 1 .repository)
      (requestSteps 0 (mugRequest 0 "k") 11 ++ [.env (.execute 0), .run 0 .proceed])) := by
  refine ⟨rfl, fun t ht => ?_⟩
  obtain rfl : t = 0 := List.mem_singleton.mp ht
  exact ⟨⟨⟨_, _, rfl⟩, _, rfl⟩, .payment, _, rfl⟩

theorem no_deadlock_of_two :
    ¬ Deadlocked (.ofPool 2 .repository) ((Catalogue.shop 3).after (.ofPool 2 .repository)
      (requestSteps 0 (mugRequest 0 "k") 11 ++ [.env (.execute 0), .run 0 .proceed])) := by
  refine no_deadlock (n := 1) (Catalogue.reachable_after ..) (by decide) ⟨[0], Nat.le_refl 1, fun t ht => ?_⟩
  cases t with
  | zero => exact List.mem_singleton_self 0
  | succ t =>
    obtain ⟨⟨_, _, ht⟩, _⟩ := ht
    cases ht

end OrdersBackend
