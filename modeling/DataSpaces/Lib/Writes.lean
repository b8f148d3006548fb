import Mathlib.Data.List.Basic
import Mathlib.Tactic

/-!
# Programs that write to a memory

A memory is a function from addresses to values. `Writes f W` says that the program `f` writes the
value `v` at the address `p` for all `p`, `v` with `W p v`, and leaves every other address alone. Such
effects compose as long as two writes to one address agree (`Writes.comp`), in particular along a loop
(`Writes.foldl`). Programs with the same effect are equal (`Writes.unique`).
-/

namespace DataSpaces.Lib

variable {α β ι : Type*}

/-- The program writes the values of the relation, and nothing else. -/
structure Writes (f : (α → β) → α → β) (W : α → β → Prop) : Prop where
  written : ∀ A p v, W p v → f A p = v
  kept : ∀ A p, (∀ v, ¬ W p v) → f A p = A p

namespace Writes

variable {f g : (α → β) → α → β} {W W' : α → β → Prop}

theorem congr (h : Writes f W) (hW : ∀ p v, W p v ↔ W' p v) : Writes f W' where
  written := fun A p v hp => h.written A p v ((hW p v).2 hp)
  kept := fun A p hp => h.kept A p fun v hv => hp v ((hW p v).1 hv)

theorem id : Writes (fun A : α → β => A) fun _ _ => False where
  written := fun _ _ _ h => h.elim
  kept := fun _ _ _ => rfl

/-- Two programs one after the other, when they agree on the addresses that both write. -/
theorem comp (hf : Writes f W) (hg : Writes g W') (hagree : ∀ p v v', W p v → W' p v' → v = v') :
    Writes (fun A => g (f A)) fun p v => W p v ∨ W' p v where
  written := by
    rintro A p v (hp | hp)
    · by_cases hlater : ∃ v', W' p v'
      · obtain ⟨v', hv'⟩ := hlater
        rw [hagree p v v' hp hv']
        exact hg.written (f A) p v' hv'
      · rw [hg.kept (f A) p fun v' hv' => hlater ⟨v', hv'⟩]
        exact hf.written A p v hp
    · exact hg.written (f A) p v hp
  kept := by
    intro A p hp
    rw [hg.kept (f A) p fun v hv => hp v (Or.inr hv)]
    exact hf.kept A p fun v hv => hp v (Or.inl hv)

/-- A loop whose rounds agree on the addresses that they write. -/
theorem foldl {body : (α → β) → ι → α → β} {V : ι → α → β → Prop} {l : List ι}
    (hbody : ∀ i ∈ l, Writes (fun A => body A i) (V i))
    (hagree : ∀ i ∈ l, ∀ j ∈ l, ∀ p v v', V i p v → V j p v' → v = v') :
    Writes (fun A => l.foldl body A) fun p v => ∃ i ∈ l, V i p v := by
  induction l with
  | nil => exact id.congr (by simp)
  | cons i l ih =>
    have htail := ih (fun j hj => hbody j (List.mem_cons_of_mem i hj))
      fun j hj k hk => hagree j (List.mem_cons_of_mem i hj) k (List.mem_cons_of_mem i hk)
    refine ((hbody i List.mem_cons_self).comp htail ?_).congr (by simp)
    rintro p v v' hv ⟨j, hj, hv'⟩
    exact hagree i List.mem_cons_self j (List.mem_cons_of_mem i hj) p v v' hv hv'

/-- The effect determines the program. -/
theorem unique (hf : Writes f W) (hg : Writes g W) : f = g := by
  funext A p
  by_cases hp : ∃ v, W p v
  · obtain ⟨v, hv⟩ := hp
    rw [hf.written A p v hv, hg.written A p v hv]
  · rw [hf.kept A p fun v hv => hp ⟨v, hv⟩, hg.kept A p fun v hv => hp ⟨v, hv⟩]

end Writes

end DataSpaces.Lib
