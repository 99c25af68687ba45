import Galley.Html.Fragment
/-!
# What holds of every node of a tree

`Every P` says that `P` holds of a node and of all nodes inside it.
-/

namespace Galley.Html

mutual

/-- `P` holds of the node and of every node inside it. -/
def Node.Every (P : Node → Prop) : Node → Prop
  | .text s => P (.text s)
  | .note kind s => P (.note kind s)
  | .element name attributes children => P (.element name attributes children) ∧ EveryOf P children

def EveryOf (P : Node → Prop) : List Node → Prop
  | [] => True
  | n :: ns => n.Every P ∧ EveryOf P ns

end

variable {P Q : Node → Prop}

mutual

def Node.decidableEvery (P : Node → Prop) [DecidablePred P] : ∀ n : Node, Decidable (n.Every P)
  | .text s => inferInstanceAs (Decidable (P (.text s)))
  | .note kind s => inferInstanceAs (Decidable (P (.note kind s)))
  | .element name attributes children =>
    have := decidableEveryOf P children
    inferInstanceAs (Decidable (P (.element name attributes children) ∧ EveryOf P children))

def decidableEveryOf (P : Node → Prop) [DecidablePred P] : ∀ ns : List Node, Decidable (EveryOf P ns)
  | [] => inferInstanceAs (Decidable True)
  | n :: ns =>
    have := n.decidableEvery P
    have := decidableEveryOf P ns
    inferInstanceAs (Decidable (n.Every P ∧ EveryOf P ns))

end

instance [DecidablePred P] (ns : List Node) : Decidable (EveryOf P ns) := decidableEveryOf P ns

theorem everyOf_iff {ns : List Node} : EveryOf P ns ↔ ∀ n ∈ ns, n.Every P := by
  induction ns with
  | nil => simp [EveryOf]
  | cons n ns ih => simp [EveryOf, ih]

@[simp] theorem everyOf_nil : EveryOf P [] := trivial

@[simp] theorem everyOf_cons {n : Node} {ns : List Node} : EveryOf P (n :: ns) ↔ n.Every P ∧ EveryOf P ns := Iff.rfl

@[simp] theorem everyOf_append {a b : List Node} : EveryOf P (a ++ b) ↔ EveryOf P a ∧ EveryOf P b := by
  simp only [everyOf_iff, List.mem_append]
  constructor
  · intro h
    exact ⟨fun n hn => h n (.inl hn), fun n hn => h n (.inr hn)⟩
  · rintro ⟨ha, hb⟩ n (hn | hn)
    · exact ha n hn
    · exact hb n hn

theorem everyOf_reverse {ns : List Node} : EveryOf P ns.reverse ↔ EveryOf P ns := by
  simp only [everyOf_iff, List.mem_reverse]

mutual

theorem Node.Every.imp (h : ∀ n, P n → Q n) : ∀ {n : Node}, n.Every P → n.Every Q
  | .text _, hn => h _ hn
  | .note _ _, hn => h _ hn
  | .element _ _ _, hn => ⟨h _ hn.1, EveryOf.imp h hn.2⟩

theorem EveryOf.imp (h : ∀ n, P n → Q n) : ∀ {ns : List Node}, EveryOf P ns → EveryOf Q ns
  | [], _ => trivial
  | _ :: _, hn => ⟨hn.1.imp h, EveryOf.imp h hn.2⟩

end

mutual

theorem Node.Every.and : ∀ {n : Node}, n.Every P → n.Every Q → n.Every fun n => P n ∧ Q n
  | .text _, hp, hq => ⟨hp, hq⟩
  | .note _ _, hp, hq => ⟨hp, hq⟩
  | .element _ _ _, hp, hq => ⟨⟨hp.1, hq.1⟩, EveryOf.and hp.2 hq.2⟩

theorem EveryOf.and : ∀ {ns : List Node}, EveryOf P ns → EveryOf Q ns → EveryOf (fun n => P n ∧ Q n) ns
  | [], _, _ => trivial
  | _ :: _, hp, hq => ⟨hp.1.and hq.1, EveryOf.and hp.2 hq.2⟩

end

mutual

theorem Node.every_of_forall (h : ∀ n, P n) : ∀ n : Node, n.Every P
  | .text _ => h _
  | .note _ _ => h _
  | .element _ _ children => ⟨h _, everyOf_of_forall h children⟩

theorem everyOf_of_forall (h : ∀ n, P n) : ∀ ns : List Node, EveryOf P ns
  | [] => trivial
  | n :: ns => ⟨n.every_of_forall h, everyOf_of_forall h ns⟩

end

mutual

theorem Node.Every.elements : ∀ {n : Node}, n.Every P → ∀ e ∈ n.elements, P e
  | .text _, _, _, he => by simp [Node.elements] at he
  | .note _ _, _, _, he => by simp [Node.elements] at he
  | .element name attributes children, hn, e, he => by
    rw [Node.elements] at he
    rcases List.mem_cons.1 he with rfl | he
    · exact hn.1
    · exact EveryOf.elements hn.2 e he

/-- What holds of every node holds of every element that is listed. -/
theorem EveryOf.elements : ∀ {ns : List Node}, EveryOf P ns → ∀ e ∈ elementsOf ns, P e
  | [], _, _, he => by simp [elementsOf] at he
  | n :: ns, hn, e, he => by
    rw [elementsOf] at he
    rcases List.mem_append.1 he with he | he
    · exact hn.1.elements e he
    · exact EveryOf.elements hn.2 e he

end

end Galley.Html
