import Mathlib.Data.List.Basic

/-! Two lists joined by a separator, told apart where one of them is free of it. -/

namespace Separator

variable {α : Type} {s : α}

/-- The first separator ends what comes before it. -/
theorem first_injective : ∀ {xs ys as bs : List α}, s ∉ xs → s ∉ ys →
    xs ++ s :: as = ys ++ s :: bs → xs = ys ∧ as = bs
  | [], [], _, _, _, _, h => ⟨rfl, (List.cons.inj h).2⟩
  | [], y :: ys, _, _, _, hys, h =>
    absurd ((List.cons.inj h).1 ▸ List.mem_cons_self) hys
  | x :: xs, [], _, _, hxs, _, h =>
    absurd ((List.cons.inj h).1 ▸ List.mem_cons_self) hxs
  | x :: xs, y :: ys, _, _, hxs, hys, h => by
    obtain ⟨rfl, hrest⟩ := List.cons.inj h
    obtain ⟨rfl, hback⟩ := first_injective (fun hx => hxs (List.mem_cons_of_mem _ hx))
      (fun hy => hys (List.mem_cons_of_mem _ hy)) hrest
    exact ⟨rfl, hback⟩

/-- The last separator starts what comes after it. -/
theorem last_injective {xs ys as bs : List α} (has : s ∉ as) (hbs : s ∉ bs)
    (h : xs ++ s :: as = ys ++ s :: bs) : xs = ys ∧ as = bs := by
  have hreverse := congrArg List.reverse h
  simp only [List.reverse_append, List.reverse_cons, List.append_assoc, List.singleton_append]
    at hreverse
  obtain ⟨hback, hfront⟩ := first_injective (fun hs => has (List.mem_reverse.mp hs))
    (fun hs => hbs (List.mem_reverse.mp hs)) hreverse
  exact ⟨List.reverse_injective hfront, List.reverse_injective hback⟩

end Separator
