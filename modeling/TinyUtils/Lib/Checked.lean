/-!
# Programs that may fault

In `Except` the parts of a program are put together with `>>=`. The program gives a value exactly if each part
gives one to the next. A loop over a list (`List.mapM`) gives a list of the same length, and fails if one part does.
-/

namespace Checked

variable {ε α β : Type}

@[simp] theorem ok_bind (a : α) (f : α → Except ε β) : (Except.ok a >>= f) = f a := rfl

@[simp] theorem error_bind (e : ε) (f : α → Except ε β) : (Except.error e >>= f) = .error e := rfl

theorem bind_eq_ok {x : Except ε α} {f : α → Except ε β} {b : β} (h : (x >>= f) = .ok b) :
    ∃ a, x = .ok a ∧ f a = .ok b := by
  cases x with
  | error e => cases h
  | ok a => exact ⟨a, rfl, h⟩

/-- A last part that does not give the value. -/
theorem bind_ne_ok {x : Except ε α} {f : α → Except ε β} {b : β} (h : ∀ a, f a ≠ .ok b) : (x >>= f) ≠ .ok b := by
  intro hb
  obtain ⟨a, _, ha⟩ := bind_eq_ok hb
  exact h a ha

/-! ## A loop over a list -/

theorem mapM_cons_eq (f : α → Except ε β) (a : α) (l : List α) :
    (a :: l).mapM f = f a >>= fun b => l.mapM f >>= fun bs => .ok (b :: bs) := List.mapM_cons

theorem mapM_map_ok {ι : Type} {f : α → Except ε β} {r : ι → α} {v : ι → β} {l : List ι}
    (h : ∀ x ∈ l, f (r x) = .ok (v x)) : (l.map r).mapM f = .ok (l.map v) := by
  induction l with
  | nil => exact List.mapM_nil
  | cons x l ih =>
    have hx : f (r x) = .ok (v x) := h x List.mem_cons_self
    have hl : (l.map r).mapM f = .ok (l.map v) := ih fun y hy => h y (List.mem_cons_of_mem x hy)
    rw [List.map_cons, mapM_cons_eq, hx, ok_bind, hl, ok_bind, List.map_cons]

theorem of_mapM_eq_ok {f : α → Except ε β} {l : List α} {bs : List β} (h : l.mapM f = .ok bs) :
    bs.length = l.length ∧ ∀ a ∈ l, ∃ b, f a = .ok b := by
  induction l generalizing bs with
  | nil =>
    rw [List.mapM_nil] at h
    cases h
    exact ⟨rfl, fun a ha => absurd ha List.not_mem_nil⟩
  | cons a l ih =>
    rw [mapM_cons_eq] at h
    obtain ⟨b, hb, h⟩ := bind_eq_ok h
    obtain ⟨bs', hbs', h⟩ := bind_eq_ok h
    cases h
    obtain ⟨hlen, hall⟩ := ih hbs'
    refine ⟨by rw [List.length_cons, List.length_cons, hlen], fun a' ha' => ?_⟩
    rcases List.mem_cons.1 ha' with rfl | ha'
    · exact ⟨b, hb⟩
    · exact hall a' ha'

end Checked
