import LexBase.Proofs.CodeMap.Evolution
import LexBase.CodeMap.Iter

/-!
# The idle null key

The slot of the null key can hold a value that equals the default. Such a value does not count as
present; to tidy a map is to drop it. Every call on a tidied map answers as before and leaves the
tidied map of what it left before, except an insertion at the null key, whose answer is the value
that was dropped.
-/

namespace LexBase

set_option autoImplicit false

variable {w : Width} {V : Type} [BEq V]

def CodeMap.tidy (m : CodeMap w V) : CodeMap w V := { m with nullValue := m.presentNull }

def Insertion.tidy (ins : Insertion w V) : Insertion w V := { ins with map := ins.map.tidy }

def Walker.Removed.tidy (r : Walker.Removed w V) : Walker.Removed w V :=
  { r with map := r.map.tidy }

def Walk.tidy (k : Walk w V) : Walk w V := { k with map := k.map.tidy }

namespace CodeMap

variable (m : CodeMap w V)

@[simp] theorem table_tidy : m.tidy.table = m.table := rfl

@[simp] theorem default_tidy : m.tidy.default = m.default := rfl

@[simp] theorem presentNull_tidy : m.tidy.presentNull = m.presentNull := by
  unfold tidy presentNull
  cases m.nullValue with
  | none => rfl
  | some v => cases hv : v != m.default <;> simp [Option.filter, hv]

/-- Values that equal the default are the default, so a reader does not miss them. -/
theorem get_tidy [LawfulBEq V] (key : CodeUnit w) : m.tidy.get key = m.get key := by
  unfold get stored?
  by_cases hk : key.isNull = true
  · simp only [if_pos hk, tidy, presentNull]
    cases m.nullValue with
    | none => rfl
    | some v =>
      by_cases hv : v = m.default
      · simp [Option.filter, hv]
      · simp [Option.filter, hv]
  · simp only [if_neg hk, table_tidy, default_tidy]

theorem contains_tidy (key : CodeUnit w) : m.tidy.contains key = m.contains key := by
  simp only [contains, presentNull_tidy, table_tidy]

theorem keys_tidy : m.tidy.keys = m.keys := by
  simp only [keys, presentNull_tidy, table_tidy]

theorem toList_tidy : m.tidy.toList = m.toList := by
  simp only [toList, presentNull_tidy, table_tidy]

theorem iter_tidy : m.tidy.iter = m.iter := by
  simp only [iter, presentNull_tidy, table_tidy]

theorem tidy_of_none (h : m.presentNull = none) : m.tidy = { m with nullValue := none } := by
  rw [tidy, h]

theorem growIfOver_tidy : growIfOver m.tidy = (growIfOver m).tidy := by
  by_cases h : m.sizing.threshold < m.table.count
  · have h' : m.tidy.sizing.threshold < m.tidy.table.count := h
    rw [growIfOver, growIfOver, if_pos h, if_pos h']
    rfl
  · have h' : ¬ m.tidy.sizing.threshold < m.tidy.table.count := h
    rw [growIfOver, growIfOver, if_neg h, if_neg h']
    rfl

theorem insert_tidy {key : CodeUnit w} (hk : key ≠ .null w) (value : V) :
    m.tidy.insert key value = (m.insert key value).tidy := by
  have hkey : ¬ key.isNull = true := fun hn => hk ((CodeUnit.isNull_iff key).mp hn)
  simp only [insert, if_neg hkey, table_tidy]
  split
  · rfl
  · next i _ => exact growIfOver_tidy (m.occupy i ⟨key, value⟩)
  · rfl

end CodeMap

namespace Walker

variable (c : Walker w) (m : CodeMap w V)

theorem hasNext_tidy : c.hasNext m.tidy = c.hasNext m := by
  simp only [hasNext, CodeMap.presentNull_tidy, CodeMap.table_tidy]
  rfl

theorem next_tidy : c.next m.tidy = c.next m := by
  simp only [next, CodeMap.presentNull_tidy]
  rfl

theorem remove_tidy : c.remove m.tidy = (c.remove m).tidy := by
  -- the check reads the table alone, and the null key is only read through `presentNull`
  have hmatch : c.matchesMap m.tidy = c.matchesMap m := rfl
  unfold remove CodeMap.clearNull
  simp only [hmatch, CodeMap.presentNull_tidy]
  split
  · rfl
  · split
    · rfl
    · cases m.presentNull <;> rfl
    · next o i _ =>
      simp only [CodeMap.removeSlot_eq, CodeMap.table_tidy]
      cases (m.table.remove i).value <;> rfl

end Walker

namespace Walk

theorem visit_tidy (choose : Chooser w V) (k : Walk w V) (e : Entry w V) :
    visit choose k.tidy e = (visit choose k e).tidy := by
  obtain ⟨walker, map, visits, events⟩ := k
  simp only [visit, Walk.tidy, Walker.remove_tidy]
  split <;> rfl

theorem run_tidy (choose : Chooser w V) (limit : Nat) (k : Walk w V) :
    run choose limit k.tidy = ((run choose limit k).1.tidy, (run choose limit k).2) := by
  induction limit generalizing k with
  | zero => rfl
  | succ limit ih =>
    obtain ⟨walker, map, visits, events⟩ := k
    simp only [run, Walk.tidy, Walker.next_tidy]
    cases walker.next map with
    | mk answer walker' =>
      cases answer with
      | ok e =>
        have hvisit := visit_tidy choose ⟨walker', map, visits, events⟩ e
        exact (congrArg (run choose limit) hvisit).trans (ih _)
      | error err => rfl

end Walk

theorem Walker.walk_tidy (c : Walker w) (m : CodeMap w V) (choose : Walk.Chooser w V)
    (limit : Nat) :
    c.walk m.tidy choose limit = ((c.walk m choose limit).1.tidy, (c.walk m choose limit).2) :=
  Walk.run_tidy choose limit ⟨c, m, #[], #[]⟩

theorem CodeMap.retain_tidy (m : CodeMap w V) (keep : Walk.Chooser w V) :
    m.tidy.retain keep = (m.retain keep).tidy :=
  congrArg Prod.fst (m.walker.walk_tidy m (fun seen e => !keep seen e) (m.size + 1))

end LexBase
