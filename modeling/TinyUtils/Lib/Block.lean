/-!
# Blocks of memory

A block is the list of what its cells hold. `read` and `write` move several cells at once and fail past
the end of the block; `put` is the write itself, and two writes side by side are one (`put_append`,
`put_append'`). `resize` gives the block a new length: the cells that were there keep what they hold, and
a new cell holds whatever the allocator left in it.
-/

namespace Block

variable {α : Type}

/-- The `n` cells from index `i`. -/
def read (l : List α) (i n : Nat) : Option (List α) :=
  if i + n ≤ l.length then some ((l.drop i).take n) else none

/-- The block with `xs` in the cells from index `i`. -/
def put (l : List α) (i : Nat) (xs : List α) : List α := l.take i ++ xs ++ l.drop (i + xs.length)

def write (l : List α) (i : Nat) (xs : List α) : Option (List α) :=
  if i + xs.length ≤ l.length then some (put l i xs) else none

/-- The block with length `n`; `fresh` is what a new cell holds. -/
def resize (fresh : Nat → α) (l : List α) (n : Nat) : List α :=
  l.take n ++ (List.range' l.length (n - l.length)).map fresh

theorem read_eq {l : List α} {i n : Nat} (h : i + n ≤ l.length) : read l i n = some ((l.drop i).take n) :=
  if_pos h

theorem read_eq_none {l : List α} {i n : Nat} (h : l.length < i + n) : read l i n = none := if_neg (by omega)

theorem write_eq {l xs : List α} {i : Nat} (h : i + xs.length ≤ l.length) : write l i xs = some (put l i xs) :=
  if_pos h

theorem write_eq_none {l xs : List α} {i : Nat} (h : l.length < i + xs.length) : write l i xs = none :=
  if_neg (by omega)

@[simp] theorem length_put {l xs : List α} {i : Nat} (h : i + xs.length ≤ l.length) :
    (put l i xs).length = l.length := by
  simp only [put, List.length_append, List.length_take, List.length_drop]
  omega

theorem length_put_one {l : List α} {i : Nat} {x : α} (h : i < l.length) : (put l i [x]).length = l.length :=
  length_put h

theorem getElem?_put_one {l : List α} {i : Nat} {x : α} (h : i < l.length) : (put l i [x])[i]? = some x := by
  have hlen : (l.take i).length = i := by rw [List.length_take]; omega
  rw [put, List.append_assoc, List.getElem?_append_right (by omega), hlen, Nat.sub_self]
  rfl

theorem getElem?_put_one_ne {l : List α} {i j : Nat} {x : α} (h : i < l.length) (hj : j ≠ i) :
    (put l i [x])[j]? = l[j]? := by
  have hlen : (l.take i).length = i := by rw [List.length_take]; omega
  rcases Nat.lt_or_gt_of_ne hj with hlt | hgt
  · rw [put, List.append_assoc, List.getElem?_append_left (by omega), List.getElem?_take_of_lt hlt]
  · rw [put, List.getElem?_append_right (by simp only [List.length_append, List.length_singleton]; omega),
      List.getElem?_drop]
    congr 1
    simp only [List.length_append, List.length_singleton]
    omega

theorem take_put_of_le {l xs : List α} {i j : Nat} (hj : j ≤ i) (hi : i ≤ l.length) :
    (put l i xs).take j = l.take j := by
  have hlen : j ≤ (l.take i).length := by rw [List.length_take]; omega
  rw [put, List.append_assoc, List.take_append_of_le_length hlen, List.take_take, Nat.min_eq_left hj]

theorem take_put {l xs : List α} {i : Nat} (hi : i ≤ l.length) :
    (put l i xs).take (i + xs.length) = l.take i ++ xs := by
  have hlen : (l.take i ++ xs).length = i + xs.length := by
    rw [List.length_append, List.length_take, Nat.min_eq_left hi]
  rw [put, ← hlen, List.take_left]

theorem drop_put {l xs : List α} {i j : Nat} (hi : i ≤ l.length) (hj : i + xs.length ≤ j) :
    (put l i xs).drop j = l.drop j := by
  have hlen : (l.take i ++ xs).length = i + xs.length := by
    rw [List.length_append, List.length_take, Nat.min_eq_left hi]
  rw [put, List.drop_append, List.drop_eq_nil_of_le (by omega), List.nil_append, List.drop_drop, hlen]
  congr 1
  omega

theorem getElem?_put_add {l xs : List α} {i j : Nat} (hi : i ≤ l.length) (hj : j < xs.length) :
    (put l i xs)[i + j]? = xs[j]? := by
  have hlen : (l.take i).length = i := by rw [List.length_take, Nat.min_eq_left hi]
  rw [put, List.append_assoc, List.getElem?_append_right (by omega), hlen, Nat.add_sub_cancel_left,
    List.getElem?_append_left hj]

theorem getElem?_put_of_ge {l xs : List α} {i j : Nat} (hi : i ≤ l.length) (hj : i + xs.length ≤ j) :
    (put l i xs)[j]? = l[j]? := by
  have hdrop : (put l i xs).drop j = l.drop j := drop_put hi hj
  have h := congrArg (fun m => m[0]?) hdrop
  simpa only [List.getElem?_drop, Nat.add_zero] using h

/-- A write and then a write right behind it. -/
theorem put_append {l xs ys : List α} {i : Nat} (hi : i + xs.length ≤ l.length) :
    put (put l i xs) (i + xs.length) ys = put l i (xs ++ ys) := by
  rw [put, take_put (by omega), drop_put (by omega) (by omega), put, List.length_append, Nat.add_assoc]
  simp only [List.append_assoc]

/-- A write and then a write right before it. -/
theorem put_append' {l xs ys : List α} {i : Nat} (hi : i + xs.length ≤ l.length) :
    put (put l (i + xs.length) ys) i xs = put l i (xs ++ ys) := by
  have htake : (put l (i + xs.length) ys).take i = l.take i := take_put_of_le (by omega) hi
  have hdrop : (put l (i + xs.length) ys).drop (i + xs.length) = ys ++ l.drop (i + xs.length + ys.length) := by
    have hlen : (l.take (i + xs.length)).length = i + xs.length := by rw [List.length_take, Nat.min_eq_left hi]
    rw [put, List.append_assoc, List.drop_left' hlen]
  rw [put, htake, hdrop, put, List.length_append, Nat.add_assoc]
  simp only [List.append_assoc]

@[simp] theorem length_resize (fresh : Nat → α) (l : List α) (n : Nat) : (resize fresh l n).length = n := by
  simp only [resize, List.length_append, List.length_take, List.length_map, List.length_range']
  omega

theorem take_resize {fresh : Nat → α} {l : List α} {n j : Nat} (hj : j ≤ n) (hl : j ≤ l.length) :
    (resize fresh l n).take j = l.take j := by
  have hlen : j ≤ (l.take n).length := by rw [List.length_take]; omega
  rw [resize, List.take_append_of_le_length hlen, List.take_take, Nat.min_eq_left hj]

theorem getElem?_resize {fresh : Nat → α} {l : List α} {n j : Nat} (hj : j < n) :
    (resize fresh l n)[j]? = some (l[j]?.getD (fresh j)) := by
  by_cases hl : j < l.length
  · rw [resize, List.getElem?_append_left (by rw [List.length_take]; omega), List.getElem?_take_of_lt hj,
      List.getElem?_eq_getElem hl]
    rfl
  · have hlen : (l.take n).length = l.length := by rw [List.length_take]; omega
    rw [resize, List.getElem?_append_right (by omega), hlen, List.getElem?_map,
      List.getElem?_range' (by omega), List.getElem?_eq_none (by omega)]
    simp only [Option.map_some, Option.getD_none, Nat.one_mul]
    rw [Nat.add_sub_cancel' (by omega)]

end Block
