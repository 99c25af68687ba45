import Galley.Extract.Bench
/-!
# Runs of the bench

`Ends work P`: from every state of the bench the work ends without a fault, and `P` holds of its
result. The rules follow the ways in which work is put together.
-/

namespace Galley.Bench

variable {α β : Type}

/-- Work that ends without a fault leads to the work behind it. -/
theorem run_bind_of_ok {work : Bench α} {next : α → Bench β} {b b' : BenchState} {a : α} (h : work.run.run b = (.ok a, b')) :
    (work >>= next).run.run b = (next a).run.run b' := by
  simp only [ExceptT.run_bind, StateT.run_bind, h]
  rfl

def Ends (work : Bench α) (P : α → Prop) : Prop :=
  ∀ b : BenchState, ∃ a b', work.run.run b = (.ok a, b') ∧ P a

namespace Ends

variable {work : Bench α} {P : α → Prop} {Q : β → Prop}

theorem mono {R : α → Prop} (h : Ends work P) (hr : ∀ a, P a → R a) : Ends work R := by
  intro b
  obtain ⟨a, b', hw, ha⟩ := h b
  exact ⟨a, b', hw, hr a ha⟩

theorem pure {a : α} (h : P a) : Ends (pure a) P := fun b => ⟨a, b, rfl, h⟩

theorem bind {next : α → Bench β} (h : Ends work P) (hn : ∀ a, P a → Ends (next a) Q) :
    Ends (work >>= next) Q := by
  intro b
  obtain ⟨a, b', hw, ha⟩ := h b
  obtain ⟨c, b'', hc, hq⟩ := hn a ha b'
  exact ⟨c, b'', (run_bind_of_ok hw).trans hc, hq⟩

theorem mapM {f : β → Bench α} {l : List β} (h : ∀ x ∈ l, Ends (f x) P) : Ends (l.mapM f) fun as => ∀ a ∈ as, P a := by
  induction l with
  | nil => exact .pure (by simp)
  | cons x l ih =>
    rw [List.mapM_cons]
    refine (h x List.mem_cons_self).bind fun a ha => ?_
    refine (ih fun y hy => h y (List.mem_cons_of_mem x hy)).bind fun as has => ?_
    exact .pure (List.forall_mem_cons.2 ⟨ha, has⟩)

/-- What every step keeps holds at the end. -/
theorem foldlM {f : β → α → Bench β} {l : List α} {b : β} (hb : Q b)
    (h : ∀ b, ∀ x ∈ l, Q b → Ends (f b x) Q) : Ends (l.foldlM f b) Q := by
  induction l generalizing b with
  | nil => exact .pure hb
  | cons x l ih =>
    rw [List.foldlM_cons]
    exact (h b x List.mem_cons_self hb).bind fun b hb => ih hb fun b y hy => h b y (List.mem_cons_of_mem x hy)

end Ends

/-! ## The bench's own work -/

theorem ends_get : Ends (get : Bench BenchState) fun _ => True := fun b => ⟨b, b, rfl, trivial⟩

theorem ends_set (b : BenchState) : Ends (set b : Bench PUnit) fun _ => True := fun _ => ⟨_, b, rfl, trivial⟩

theorem ends_modify (f : BenchState → BenchState) : Ends (modify f : Bench PUnit) fun _ => True :=
  fun b => ⟨_, f b, rfl, trivial⟩

theorem ends_notify (n : Notice) : Ends (notify n) fun _ => True := ends_modify _

theorem ends_notifyAll (ns : List Notice) : Ends (notifyAll ns) fun _ => True := ends_modify _

theorem ends_nextTheorem (kind : Text) : Ends (nextTheorem kind) fun _ => True :=
  ends_get.bind fun _ _ => (ends_set _).bind fun _ _ => .pure trivial

theorem ends_nextAlgorithm : Ends nextAlgorithm fun _ => True :=
  ends_get.bind fun _ _ => (ends_set _).bind fun _ _ => .pure trivial

theorem ends_math (kit : Kit) (source : Text) (display : Formula.Display) :
    Ends (math kit source display) fun _ => True :=
  (ends_notifyAll _).bind fun _ _ => .pure trivial

theorem run_attempt (work : Bench α) (b : BenchState) :
    (attempt work).run.run b = match work.run.run b with
      | (.ok a, b') => (.ok (.ok a), b')
      | (.error e, b') => (.ok (.error e.message), b') := by
  have run_bind : (work >>= fun a => (Pure.pure (.ok a) : Bench (Except Text α))).run.run b =
      match work.run.run b with
        | (.ok a, b') => (.ok (.ok a), b')
        | (.error e, b') => (.error e, b') := by
    simp only [ExceptT.run_bind, StateT.run_bind]
    rcases work.run.run b with ⟨_ | _, b'⟩ <;> rfl
  simp only [attempt, tryCatch, tryCatchThe, MonadExcept.tryCatch, MonadExceptOf.tryCatch, ExceptT.tryCatch,
    ExceptT.run_mk]
  change StateT.run (ExceptT.run (work >>= _) >>= _) b = _
  rw [StateT.run_bind, run_bind]
  rcases work.run.run b with ⟨_ | _, b'⟩ <;> rfl

/-- A fault of attempted work is a result like any other. -/
theorem ends_attempt (work : Bench α) : Ends (attempt work) fun _ => True := by
  intro b
  rw [run_attempt]
  rcases work.run.run b with ⟨e | a, b'⟩
  · exact ⟨_, b', rfl, trivial⟩
  · exact ⟨_, b', rfl, trivial⟩

/-- `I n` holds when `n` rounds are left. -/
theorem ends_rounds {construct : Text} {cap : Int} {step : α → Bench (Option α)} {a : α} {I : Nat → α → Prop}
    {P : α → Prop} (hstep : ∀ n a, I (n + 1) a → Ends (step a) fun r => match r with
      | none => P a
      | some a => I n a)
    (hcap : ∀ a, I 0 a → P a) (ha : I cap.toNat a) : Ends (rounds construct cap step a) P := by
  have main (n : Nat) (a : α) (ha : I n a) : Ends (rounds.go construct cap step n a) P := by
    induction n generalizing a with
    | zero => exact (ends_notify _).bind fun _ _ => .pure (hcap a ha)
    | succ n ih =>
      refine (hstep n a ha).bind fun r hr => ?_
      cases r with
      | none => exact .pure hr
      | some a => exact ih a hr
  exact main _ a ha

/-- What every round keeps holds at the end. -/
theorem ends_rounds_of_step {construct : Text} {cap : Int} {step : α → Bench (Option α)} {a : α} {P : α → Prop}
    (ha : P a) (hstep : ∀ a, P a → Ends (step a) fun r => ∀ a ∈ r, P a) : Ends (rounds construct cap step a) P := by
  refine ends_rounds (I := fun _ => P) (fun _ a ha => (hstep a ha).mono fun r hr => ?_) (fun _ h => h) ha
  cases r with
  | none => exact ha
  | some a => exact hr a rfl

end Galley.Bench
