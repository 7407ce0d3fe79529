import NeoScript.Proofs.Json.Agreement

/-!
# Results — what a reader can give

* `Json.Reader.Gives` — whatever text the reader accepts, its value has a property;
* `Gives.bind`, `Gives.ite`, `gives_array`, `gives_object` — that of a reader from that of its
  parts.
-/

namespace NeoScript
namespace Json
namespace Reader

variable {α β σ : Type} {P : α → Prop} {Q : β → Prop} {I : σ → Prop}

/-- The value of every text that the reader accepts has the property. -/
def Gives (P : α → Prop) (x : Reader α) : Prop :=
  ∀ cs a s, x cs = .ok (a, s) → P a

namespace Gives

theorem of_refuses {x : Reader α} (h : x.Refuses) : Gives P x := by
  intro cs a s hx
  exact absurd hx (h cs a s)

theorem any (x : Reader α) : Gives (fun _ => True) x :=
  fun _ _ _ _ => trivial

theorem pure {a : α} (h : P a) : Gives P (Pure.pure a) := by
  intro cs b s hb
  cases hb
  exact h

theorem bind {x : Reader α} {f : α → Reader β} (hx : Gives P x) (hf : ∀ a, P a → Gives Q (f a)) :
    Gives Q (x >>= f) := by
  intro cs b t hb
  obtain ⟨a, s, ha, hb⟩ := bind_eq_ok.1 hb
  exact hf a (hx cs a s ha) s b t hb

/-- Nothing is known of what the first step gives. -/
theorem bind_any {x : Reader α} {f : α → Reader β} (hf : ∀ a, Gives Q (f a)) : Gives Q (x >>= f) :=
  (any x).bind fun a _ => hf a

theorem ite {c : Prop} [Decidable c] {x y : Reader α} (hx : Gives P x) (hy : Gives P y) :
    Gives P (if c then x else y) := by
  split
  · exact hx
  · exact hy

end Gives

/-- All items have the property if one item has it, whatever was read before. -/
theorem gives_items {item : Reader α} (h : Gives P item) (fuel : Nat) (first : Bool) {out : List α}
    (hout : ∀ a ∈ out, P a) : Gives (∀ a ∈ ·, P a) (items item fuel first out) := by
  induction fuel generalizing first out with
  | zero => exact .of_refuses (.fail _)
  | succ fuel ih =>
      refine .bind_any fun more => .ite ?_ ?_
      · exact h.bind fun a ha => ih false (List.forall_mem_cons.2 ⟨ha, hout⟩)
      · exact .pure (by simpa using hout)

/-- An invariant of the collected members is kept by all of them. -/
theorem gives_members {member : String → σ → Reader σ}
    (h : ∀ name acc, I acc → Gives I (member name acc)) (fuel : Nat) (first : Bool) {acc : σ}
    (hacc : I acc) : Gives I (members member fuel first acc) := by
  induction fuel generalizing first acc with
  | zero => exact .of_refuses (.fail _)
  | succ fuel ih =>
      refine .bind_any fun more => .ite ?_ (.pure hacc)
      refine .bind_any fun _ => .bind_any fun name => ?_
      exact (h name acc hacc).bind fun _ => ih false

/-- Without another level nothing is read. -/
theorem gives_nested {depth : Nat} {body : Nat → Reader α}
    (h : ∀ inner, depth = inner + 1 → Gives P (body inner)) : Gives P (nested depth body) := by
  cases depth with
  | zero => exact .of_refuses (.fail _)
  | succ inner => exact .bind_any fun _ => h inner rfl

theorem gives_array {item : Nat → Reader α} {depth : Nat}
    (h : ∀ inner, depth = inner + 1 → Gives P (item inner)) :
    Gives (∀ a ∈ ·, P a) (array depth item) := by
  refine .bind_any fun c => .ite ?_ (.of_refuses wrongShape_refuses)
  refine gives_nested fun inner hinner => .bind_any fun cs => ?_
  refine (gives_items (h inner hinner) _ true (by simp)).bind fun out hout => ?_
  exact .bind_any fun _ => .pure hout

/-- What the members of an object keep, as they are read one by one, the object has at its end. -/
theorem gives_object {start : σ} {member : Nat → String → σ → Reader σ} {finish : σ → Reader α}
    {depth : Nat} (hstart : I start)
    (hmember : ∀ inner, depth = inner + 1 → ∀ name acc, I acc → Gives I (member inner name acc))
    (hfinish : ∀ acc, I acc → Gives P (finish acc)) :
    Gives P (object depth start member finish) := by
  refine .bind_any fun c => .ite ?_ (.of_refuses wrongShape_refuses)
  refine gives_nested fun inner hinner => .bind_any fun cs => ?_
  refine (gives_members (hmember inner hinner) _ true hstart).bind fun acc hacc => ?_
  refine (hfinish acc hacc).bind fun a ha => ?_
  exact .bind_any fun _ => .pure ha

/-- A member that must not occur twice has the property if it is there. -/
theorem gives_once {item : Reader α} (h : Gives P item) (seen : Option α) :
    Gives (∀ a ∈ ·, P a) (once seen item) := by
  refine .ite (.of_refuses (.fail _)) (.bind_any fun _ => h.bind fun a ha => .pure ?_)
  simpa using ha

theorem gives_required {o : Option α} (h : ∀ a ∈ o, P a) : Gives P (required o) := by
  cases o with
  | none => exact .of_refuses (.fail _)
  | some a => exact .pure (h a rfl)

end Reader
end Json
end NeoScript
