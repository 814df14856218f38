import Mathlib.Logic.Function.Basic
import Mathlib.Tactic

/-! Singly linked lists whose links are members of the listed objects: a head
pointer, a link in every object, insertion at the front, and removal by a walk
over the addresses of the links. -/

/-- A head pointer and the link of every object. -/
structure IntrusiveList (α : Type*) where
  head : Option α
  next : α → Option α

namespace IntrusiveList

variable {α : Type*} [DecidableEq α]

def read (l : IntrusiveList α) : Option α → Option α
  | none => l.head
  | some a => l.next a

def write (l : IntrusiveList α) (v : Option α) : Option α → IntrusiveList α
  | none => { l with head := v }
  | some a => { l with next := Function.update l.next a v }

def insertFront (l : IntrusiveList α) (a : α) : IntrusiveList α :=
  ⟨some a, Function.update l.next a l.head⟩

/-- The walk: at the link that points to the target, bypass it and stop. -/
def removeFrom (target : α) : Nat → IntrusiveList α → Option α → IntrusiveList α
  | 0, l, _ => l
  | fuel + 1, l, link =>
    match l.read link with
    | none => l
    | some a =>
      if a = target then l.write (l.next target) link
      else removeFrom target fuel l (some a)

def remove (l : IntrusiveList α) (fuel : Nat) (target : α) : IntrusiveList α :=
  removeFrom target fuel l none

def Chain (next : α → Option α) : Option α → List α → Prop
  | p, [] => p = none
  | p, x :: xs => p = some x ∧ Chain next (next x) xs

def Represents (l : IntrusiveList α) (xs : List α) : Prop := Chain l.next l.head xs

theorem Chain.update {next : α → Option α} {p : Option α} {xs : List α} {a : α} (ha : a ∉ xs)
    (v : Option α) (h : Chain next p xs) : Chain (Function.update next a v) p xs := by
  induction xs generalizing p with
  | nil => exact h
  | cons x xs ih =>
    have hx : x ≠ a := fun he => ha (by simp [he])
    refine ⟨h.1, ?_⟩
    rw [Function.update_of_ne hx]
    exact ih (fun hm => ha (by simp [hm])) h.2

theorem insertFront_represents {l : IntrusiveList α} {xs : List α} {a : α} (ha : a ∉ xs)
    (h : l.Represents xs) : (l.insertFront a).Represents (a :: xs) := by
  refine ⟨rfl, ?_⟩
  simp only [insertFront, Function.update_self]
  exact h.update ha _

theorem removeFrom_chain {l : IntrusiveList α} {target a : α} {xs : List α} {fuel : Nat}
    (hnd : (a :: xs).Nodup) (hfuel : xs.length < fuel) (ht : a ≠ target)
    (h : Chain l.next (l.next a) xs) :
    (removeFrom target fuel l (some a)).head = l.head ∧
      (∀ b, b ∉ a :: xs → (removeFrom target fuel l (some a)).next b = l.next b) ∧
      Chain (removeFrom target fuel l (some a)).next
        ((removeFrom target fuel l (some a)).next a) (xs.erase target) := by
  induction fuel generalizing a xs with
  | zero => omega
  | succ fuel ih =>
    cases xs with
    | nil =>
      have hn : l.next a = none := h
      simp [removeFrom, read, hn, Chain]
    | cons x xs =>
      obtain ⟨hx, hc⟩ := h
      have hnd' := (List.nodup_cons.mp hnd).2
      have hax : a ∉ x :: xs := (List.nodup_cons.mp hnd).1
      by_cases hxt : x = target
      · subst hxt
        have he : removeFrom x (fuel + 1) l (some a) =
            { l with next := Function.update l.next a (l.next x) } := by
          simp [removeFrom, read, hx, write]
        rw [he, List.erase_cons_head]
        refine ⟨rfl, fun b hb => ?_, ?_⟩
        · exact Function.update_of_ne (fun hba => hb (by simp [hba])) _ _
        · simp only [Function.update_self]
          exact hc.update (fun hm => hax (by simp [hm])) _
      · have he : removeFrom target (fuel + 1) l (some a) = removeFrom target fuel l (some x) := by
          simp [removeFrom, read, hx, hxt]
        obtain ⟨hh, hframe, hchain⟩ := ih hnd' (by simpa using hfuel) hxt hc
        rw [he, List.erase_cons_tail (by simpa using hxt)]
        refine ⟨hh, fun b hb => hframe b (fun hm => hb (List.mem_cons_of_mem _ hm)), ?_⟩
        rw [hframe a hax]
        exact ⟨hx, hchain⟩

theorem remove_represents {l : IntrusiveList α} {xs : List α} {fuel : Nat} (target : α)
    (hnd : xs.Nodup) (hfuel : xs.length < fuel) (h : l.Represents xs) :
    (l.remove fuel target).Represents (xs.erase target) := by
  obtain ⟨fuel, rfl⟩ : ∃ n, fuel = n + 1 := ⟨fuel - 1, by omega⟩
  cases xs with
  | nil =>
    have hn : l.head = none := h
    simpa [remove, removeFrom, read, hn] using h
  | cons x xs =>
    obtain ⟨hx, hc⟩ := h
    by_cases hxt : x = target
    · subst hxt
      have he : l.remove (fuel + 1) x = { l with head := l.next x } := by
        simp [remove, removeFrom, read, hx, write]
      rw [he, List.erase_cons_head]
      exact hc
    · have he : l.remove (fuel + 1) target = removeFrom target fuel l (some x) := by
        simp [remove, removeFrom, read, hx, hxt]
      obtain ⟨hh, -, hchain⟩ := removeFrom_chain hnd (by simpa using hfuel) hxt hc
      rw [he, List.erase_cons_tail (by simpa using hxt)]
      exact ⟨by rw [hh, hx], hchain⟩

end IntrusiveList
