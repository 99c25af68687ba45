import Galley.Proofs.Runs
/-!
# Runs of the bench and its table

`Leads t work Q`: from a state of the bench with the table `t` the work ends without a fault, and `Q` holds of its
result and of the table then. Work that only looks leaves the table as it was (`Idle`).
-/

namespace Galley.Bench

open Block (Table)

variable {α β : Type}

def Leads (t : Table) (work : Bench α) (Q : α → Table → Prop) : Prop :=
  ∀ b : BenchState, b.table = t → ∃ a b', work.run.run b = (.ok a, b') ∧ Q a b'.table

namespace Leads

variable {t : Table} {work : Bench α} {Q : α → Table → Prop} {R : β → Table → Prop}

theorem mono {R : α → Table → Prop} (h : Leads t work Q) (hr : ∀ a u, Q a u → R a u) : Leads t work R := by
  intro b hb
  obtain ⟨a, b', hw, ha⟩ := h b hb
  exact ⟨a, b', hw, hr _ _ ha⟩

theorem pure {a : α} (h : Q a t) : Leads t (pure a) Q := by
  intro b hb
  exact ⟨a, b, rfl, by rw [hb]; exact h⟩

theorem bind {next : α → Bench β} (h : Leads t work Q) (hn : ∀ a u, Q a u → Leads u (next a) R) :
    Leads t (work >>= next) R := by
  intro b hb
  obtain ⟨a, b', hw, ha⟩ := h b hb
  obtain ⟨c, b'', hc, hr⟩ := hn a b'.table ha b' rfl
  refine ⟨c, b'', ?_, hr⟩
  simp only [ExceptT.run_bind, StateT.run_bind, hw]
  exact hc

theorem get : Leads t (get : Bench BenchState) fun b u => b.table = t ∧ u = t := fun b hb => ⟨b, b, rfl, hb, hb⟩

theorem modify {f : BenchState → BenchState} (hf : ∀ b, (f b).table = b.table) :
    Leads t (modify f : Bench PUnit) fun _ u => u = t := fun b hb => ⟨_, f b, rfl, by rw [hf, hb]⟩

/-- A fragment that is registered changes the table as the table itself says. -/
theorem register (kind : Block.Kind) (fragment : Text) (ownLine : Bool) :
    Leads t (Bench.register kind fragment ownLine) fun a u =>
      a = (if ownLine then "\n\n" ++ (t.register kind fragment).1 ++ "\n\n" else (t.register kind fragment).1) ∧
      u = (t.register kind fragment).2 := by
  rintro b rfl
  exact ⟨_, _, rfl, rfl, rfl⟩

end Leads

/-- Whatever the table is, the work gives `a` and leaves the table as it was. -/
def Idle (work : Bench α) (a : α) : Prop := ∀ t, Leads t work fun a' u => a' = a ∧ u = t

namespace Idle

variable {a : α} {c : β} {work : Bench α}

theorem pure (a : α) : Idle (Pure.pure a) a := fun _ => .pure ⟨rfl, rfl⟩

theorem bind {next : α → Bench β} (h : Idle work a) (hn : Idle (next a) c) : Idle (work >>= next) c := by
  intro t
  refine (h t).bind fun a' u hu => ?_
  obtain ⟨rfl, rfl⟩ := hu
  exact hn u

theorem modify {f : BenchState → BenchState} (hf : ∀ b, (f b).table = b.table) : Idle (modify f : Bench PUnit) () :=
  fun t => (@Leads.modify t f hf).mono fun _ _ h => ⟨rfl, h⟩

theorem notify (n : Notice) : Idle (Bench.notify n) () := modify fun _ => rfl

theorem notifyAll (ns : List Notice) : Idle (Bench.notifyAll ns) () := modify fun _ => rfl

/-- Rounds that find nothing the first time. -/
theorem rounds {construct : Text} {cap : Int} {step : α → Bench (Option α)} (h : Idle (step a) none) :
    Idle (Bench.rounds construct cap step a) a := by
  unfold Bench.rounds
  cases cap.toNat with
  | zero => exact (notify _).bind (.pure a)
  | succ n => exact h.bind (.pure a)

theorem foldlM {f : α → β → Bench α} {l : List β} (h : ∀ x ∈ l, Idle (f a x) a) : Idle (l.foldlM f a) a := by
  induction l with
  | nil => exact .pure a
  | cons x l ih =>
    rw [List.foldlM_cons]
    exact (h x List.mem_cons_self).bind (ih fun y hy => h y (List.mem_cons_of_mem x hy))

end Idle

/-- Rounds that find something the first time and nothing the second. -/
theorem Leads.rounds_once {construct : Text} {cap : Int} {step : α → Bench (Option α)} {a c : α} {t u : Table}
    (hcap : 1 ≤ cap) (hfirst : Leads t (step a) fun r v => r = some c ∧ v = u) (hsecond : Idle (step c) none) :
    Leads t (rounds construct cap step a) fun r v => r = c ∧ v = u := by
  obtain ⟨n, hn⟩ : ∃ n, cap.toNat = n + 1 := Nat.exists_eq_add_of_le' (by omega : 1 ≤ cap.toNat)
  unfold Bench.rounds
  rw [hn]
  refine hfirst.bind fun r v ⟨hr, hv⟩ => ?_
  rw [hr, hv]
  have hrest : Idle (rounds.go construct cap step n c) c := by
    cases n with
    | zero => exact (Idle.notify _).bind (.pure c)
    | succ n => exact hsecond.bind (.pure c)
  exact hrest u

end Galley.Bench
