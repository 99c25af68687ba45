import Galley.Proofs.LeafEnvironments
import Galley.Proofs.LeafLists
import Galley.Proofs.Quiet
/-!
# Rounds that reach their cap

Environments are taken out one after another, each for the token with the next number, so which they are is a matter of the
text alone (`Environment.takenOut`). The rounds over lists take out as many as the cap allows (`run_extract_lists`). They give
notice of the cap as soon as it is used up: when a list is left, and also when there was just room for the last one
(`capReached_exact_iff`).
-/

namespace Galley

open Block.Token (ofNumber)
open Lists (ownLine)

/-! ## What is taken out -/

namespace Environment

/-- The environments that `first` finds in a text one after another, in at most so many rounds, where each gives way to the
    token with the next number. -/
def takenOut (first : Text → Option Environment) (kind : Block.Kind) : (rounds issued : Nat) → Text → List Environment
  | 0, _, _ => []
  | n + 1, issued, s =>
    match first s with
    | none => []
    | some e => e :: takenOut first kind n (issued + 1) (e.replaceBy (ownLine (ofNumber kind (issued + 1))))

/-- The text that is left, with the tokens in it. -/
def leftOver (first : Text → Option Environment) (kind : Block.Kind) : (rounds issued : Nat) → Text → Text
  | 0, _, s => s
  | n + 1, issued, s =>
    match first s with
    | none => s
    | some e => leftOver first kind n (issued + 1) (e.replaceBy (ownLine (ofNumber kind (issued + 1))))

variable {first : Text → Option Environment} {kind : Block.Kind} {n issued : Nat} {s : Text}

theorem takenOut_of_none (h : first s = none) : takenOut first kind n issued s = [] := by
  cases n with
  | zero => rfl
  | succ n => rw [takenOut, h]

theorem takenOut_of_some {e : Environment} (h : first s = some e) : takenOut first kind (n + 1) issued s =
    e :: takenOut first kind n (issued + 1) (e.replaceBy (ownLine (ofNumber kind (issued + 1)))) := by
  rw [takenOut, h]

/-- Each of them is found in some text. -/
theorem mem_takenOut {e : Environment} (h : e ∈ takenOut first kind n issued s) : ∃ t, first t = some e := by
  induction n generalizing issued s with
  | zero => cases h
  | succ n ih =>
    rw [takenOut] at h
    split at h
    · cases h
    · rename_i f hf
      rcases List.mem_cons.1 h with rfl | h
      · exact ⟨s, hf⟩
      · exact ih h

end Environment

/-! ## Results and notices -/

namespace Bench

variable {α β : Type}

/-- Whether work that begins afresh ends with a result. -/
def finishes (work : Bench α) : Bool :=
  match work.run.run {} with
  | (.ok _, _) => true
  | (.error _, _) => false

theorem exists_run_of_finishes (work : Bench α) (h : finishes work = true) : ∃ a b, work.run.run {} = (.ok a, b) := by
  unfold finishes at h
  split at h
  · exact ⟨_, _, by assumption⟩
  · cases h

/-- However the work ends, it adds notices of `P` only. -/
def Notes (P : Notice → Prop) (work : Bench α) : Prop :=
  ∀ b, ∃ ns, (work.run.run b).2.notices = b.notices ++ ns ∧ ∀ n ∈ ns, P n

namespace Notes

variable {P : Notice → Prop} {work : Bench α}

theorem pure (a : α) : Notes P (Pure.pure a : Bench α) := fun b => ⟨[], (List.append_nil b.notices).symm, by simp⟩

theorem throw (e : Fault) : Notes P (MonadExcept.throw e : Bench α) := fun b => ⟨[], (List.append_nil b.notices).symm, by simp⟩

theorem notifyAll {ns : List Notice} (h : ∀ n ∈ ns, P n) : Notes P (Bench.notifyAll ns) := fun _ => ⟨ns, rfl, h⟩

theorem bind {next : α → Bench β} (h : Notes P work) (hn : ∀ a, Notes P (next a)) : Notes P (work >>= next) := by
  intro b
  obtain ⟨ns, hns, hall⟩ := h b
  rw [run_bind]
  generalize work.run.run b = r at hns ⊢
  obtain ⟨_ | a, b'⟩ := r
  · exact ⟨ns, hns, hall⟩
  · obtain ⟨ms, hms, hmore⟩ := hn a b'
    refine ⟨ns ++ ms, ?_, fun n hn => ?_⟩
    · dsimp only at hns ⊢
      rw [hms, hns, List.append_assoc]
    · rcases List.mem_append.1 hn with hn | hn
      · exact hall n hn
      · exact hmore n hn

theorem mapM {f : β → Bench α} {l : List β} (h : ∀ x, Notes P (f x)) : Notes P (l.mapM f) := by
  induction l with
  | nil => exact .pure []
  | cons x l ih =>
    rw [List.mapM_cons]
    exact (h x).bind fun a => ih.bind fun as => .pure (a :: as)

end Notes

/-- A notice of a formula that the converter refuses. -/
def IsRefusal (n : Notice) : Prop := ∃ message formula display, n = .mathFailed message formula display

theorem isRefusal_of_render {settings : Settings} {engine : Formula.Engine} {source : Text} {display : Formula.Display}
    {n : Notice} (h : (Formula.render settings engine source display).notice = some n) : IsRefusal n := by
  unfold Formula.render at h
  dsimp only at h
  split at h
  · exact ⟨_, _, _, (Option.some.inj h).symm⟩
  · split at h
    · cases h
    · split at h <;> cases h

theorem Notes.inline (kit : Kit) (s : Text) : Notes IsRefusal (Bench.inline kit s) := by
  have hrefusals : ∀ n ∈ Inline.notices kit.settings kit.engine s, IsRefusal n := by
    intro n hn
    obtain ⟨f, -, hf⟩ := List.mem_filterMap.1 hn
    exact isRefusal_of_render hf
  refine (Notes.notifyAll hrefusals).bind fun _ => ?_
  split
  · exact .pure _
  · exact .throw _

theorem Notes.listFragment (kit : Kit) (name body : Text) : Notes IsRefusal (Extract.List.fragment kit name body) := by
  have hdescription (item : Option Text × Text) : Notes IsRefusal (Extract.List.descriptionEntry kit item) :=
    (Notes.inline kit _).bind fun _ => (Notes.inline kit _).bind fun _ => .pure _
  have hentry (item : Option Text × Text) : Notes IsRefusal (Extract.List.listEntry kit item) := by
    obtain ⟨label, s⟩ := item
    refine (Notes.inline kit s).bind fun _ => ?_
    cases label with
    | some label => exact (Notes.inline kit label).bind fun _ => .pure _
    | none => exact .pure _
  unfold Extract.List.fragment
  dsimp only
  split
  · exact (Notes.mapM hdescription).bind fun _ => .pure _
  · exact (Notes.mapM hentry).bind fun _ => .pure _

end Bench

/-! ## Lists -/

namespace Extract.List

open Environment (leaf? takenOut)
open Marker (Wordy beginsAny)
open Text (tally)

theorem wordy_environmentNames : Wordy environmentNames := ⟨by decide, by decide, by decide⟩

theorem environmentNames_ne_nil : environmentNames ≠ [] := List.cons_ne_nil _ _

/-- How many lists can be taken out of a text one after another, when `issued` tokens have been handed out. -/
def listCount (issued : Nat) (s : Text) : Nat :=
  (takenOut (leaf? environmentNames) .list (tally (beginsAny environmentNames) s) issued s).length

theorem listCount_of_none {s : Text} (h : leaf? environmentNames s = none) (issued : Nat) : listCount issued s = 0 := by
  rw [listCount, Environment.takenOut_of_none h]
  rfl

/-- A list that is taken out leaves one less. -/
theorem listCount_of_some {s : Text} {e : Environment} (h : leaf? environmentNames s = some e) (issued : Nat) :
    listCount issued s = listCount (issued + 1) (e.replaceBy (ownLine (ofNumber .list (issued + 1)))) + 1 := by
  have hcount := wordy_environmentNames.tally_leaf environmentNames_ne_nil h (placed_token .list (issued + 1) true)
  rw [listCount, ← hcount, Environment.takenOut_of_some h]
  rfl

theorem isSome_leaf?_iff (issued : Nat) (s : Text) : (leaf? environmentNames s).isSome = true ↔ 0 < listCount issued s := by
  cases h : leaf? environmentNames s with
  | none => simp [listCount_of_none h]
  | some e => simp [listCount_of_some h]

/-- A round takes out the first leaf for the token with the next number. -/
theorem run_round {kit : Kit} {s : Text} {r : Option Text} {b b' : BenchState}
    (h : (Lists.round kit s).run.run b = (.ok r, b')) :
    (leaf? environmentNames s = none ∧ r = none ∧ b' = b) ∨
      ∃ e ns, leaf? environmentNames s = some e ∧ r = some (e.replaceBy (ownLine (ofNumber .list (b.table.issued + 1)))) ∧
        b'.table.issued = b.table.issued + 1 ∧ b'.extracted = b.extracted + 1 ∧ b'.notices = b.notices ++ ns ∧
        ∀ n ∈ ns, Bench.IsRefusal n := by
  rw [Lists.round] at h
  cases hleaf : leaf? environmentNames s with
  | none =>
    rw [hleaf] at h
    obtain ⟨rfl, rfl⟩ := Bench.run_pure_ok h
    exact .inl ⟨rfl, rfl, rfl⟩
  | some e =>
    rw [hleaf] at h
    obtain ⟨fragment, b₁, hfragment, hrest⟩ := Bench.run_bind_ok h
    have hkept := Bench.Quiet.listFragment kit e.name e.body b
    obtain ⟨ns, hns, hall⟩ := Bench.Notes.listFragment kit e.name e.body b
    rw [hfragment] at hkept hns
    dsimp only at hkept hns
    cases hrest
    refine .inr ⟨e, ns, rfl, ?_, ?_, ?_, hns, hall⟩
    · rw [← hkept.table]
      rfl
    · rw [← hkept.table]
      exact Block.Table.issued_register _ _ _
    · rw [← hkept.extracted]

/-- The rounds take out lists while there are any, as many as the cap allows. -/
theorem run_go {kit : Kit} {cap : Int} {n : Nat} {s out : Text} {b b' : BenchState}
    (h : (Bench.rounds.go "list" cap (Lists.round kit) n s).run.run b = (.ok out, b')) :
    b'.extracted = b.extracted + min n (listCount b.table.issued s) ∧
      ((leaf? environmentNames out).isSome = true ↔ n < listCount b.table.issued s) ∧
      ∃ ns, b'.notices = b.notices ++ ns ∧ (.capReached "list" cap ∈ ns ↔ n ≤ listCount b.table.issued s) := by
  induction n generalizing s b with
  | zero =>
    cases h
    exact ⟨by rw [Nat.zero_min]; rfl, isSome_leaf?_iff _ _, [.capReached "list" cap], rfl, by simp⟩
  | succ n ih =>
    obtain ⟨r, b₁, hround, hrest⟩ := Bench.run_bind_ok h
    rcases run_round hround with ⟨hleaf, rfl, rfl⟩ | ⟨e, ns, hleaf, rfl, hissued, hextracted, hnotices, hall⟩
    · obtain ⟨rfl, rfl⟩ := Bench.run_pure_ok hrest
      rw [listCount_of_none hleaf, hleaf]
      exact ⟨rfl, by simp, [], by rw [List.append_nil], by simp⟩
    · obtain ⟨hcount, hleft, ms, hms, hcap⟩ := ih hrest
      rw [hissued] at hcount hleft hcap
      rw [listCount_of_some hleaf]
      refine ⟨by omega, by rw [hleft]; omega, ns ++ ms, by rw [hms, hnotices, List.append_assoc], ?_⟩
      have hnone : .capReached "list" cap ∉ ns := fun hm => by
        obtain ⟨_, _, _, he⟩ := hall _ hm
        cases he
      rw [List.mem_append, or_iff_right hnone, hcap]
      omega

/-- **Notice of the cap.** The work takes out as many lists as there are, up to the cap. It leaves a list that it could take
    out just if there are more than the cap, and it gives notice just if there are as many as the cap or more. So the notice
    tells whether a list is left unless there are exactly as many lists as the cap. -/
theorem capReached_exact_iff (kit : Kit) (s : Text) {out : Text} {b b' : BenchState}
    (h : (extract kit s).run.run b = (.ok out, b')) :
    b'.extracted = b.extracted + min kit.settings.listIterationCap (listCount b.table.issued s) ∧
    ((leaf? environmentNames out).isSome = true ↔ kit.settings.listIterationCap < listCount b.table.issued s) ∧
    ∃ ns, b'.notices = b.notices ++ ns ∧
      (.capReached "list" kit.settings.listIterationCap ∈ ns ↔
        kit.settings.listIterationCap ≤ listCount b.table.issued s) ∧
      ((.capReached "list" kit.settings.listIterationCap ∈ ns ↔ (leaf? environmentNames out).isSome = true) ↔
        listCount b.table.issued s ≠ kit.settings.listIterationCap) := by
  rw [Lists.extract_eq] at h
  obtain ⟨hcount, hleft, ns, hns, hcap⟩ := run_go h
  refine ⟨hcount, hleft, ns, hns, hcap, ?_⟩
  rw [hcap, hleft]
  omega

/-- A list, with a list in its item. -/
def outline : Text :=
  "\\begin\x7bitemize\x7d\\item a\\begin\x7benumerate\x7d\\item b\\end\x7benumerate\x7d\\end\x7bitemize\x7d"

/-- A kit that takes out so many lists. -/
def kitOfCap (cap : Nat) : Kit := { settings := { listIterationCap := cap }, engine := fun _ _ => .error [] }

theorem listCount_outline : listCount 0 outline = 2 := by decide +kernel

theorem capReached_exact_iff_outline : ∃ out b', (extract (kitOfCap 1) outline).run.run {} = (.ok out, b') ∧
    b'.extracted = 1 ∧ (leaf? environmentNames out).isSome = true ∧ .capReached "list" 1 ∈ b'.notices := by
  obtain ⟨out, b', hrun⟩ := Bench.exists_run_of_finishes (extract (kitOfCap 1) outline) (by decide +kernel)
  obtain ⟨hextracted, hleft, ns, hns, hcap, -⟩ := capReached_exact_iff (kitOfCap 1) outline hrun
  rw [show listCount _ outline = 2 from listCount_outline] at hextracted hleft hcap
  refine ⟨out, b', hrun, hextracted, hleft.2 (by decide), ?_⟩
  rw [hns]
  exact List.mem_append_right _ (hcap.2 (by decide))

/-- With room for two lists both are taken out and none is left, and still the cap is noticed. -/
theorem notice_without_list : ∃ out b', (extract (kitOfCap 2) outline).run.run {} = (.ok out, b') ∧
    b'.extracted = 2 ∧ leaf? environmentNames out = none ∧ .capReached "list" 2 ∈ b'.notices := by
  obtain ⟨out, b', hrun⟩ := Bench.exists_run_of_finishes (extract (kitOfCap 2) outline) (by decide +kernel)
  have hrounds := hrun
  rw [Lists.extract_eq] at hrounds
  obtain ⟨hextracted, hleft, ns, hns, hcap⟩ := run_go hrounds
  rw [show listCount _ outline = 2 from listCount_outline] at hextracted hleft hcap
  refine ⟨out, b', hrun, hextracted, ?_, ?_⟩
  · rw [← Option.not_isSome_iff_eq_none, hleft]
    decide
  · rw [hns]
    exact List.mem_append_right _ (hcap.2 (by decide))

end Extract.List

end Galley
