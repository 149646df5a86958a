import Mathlib.Data.List.Nodup
import Mathlib.Logic.Relation

/-! Keys in the order of what they need.

In a `Layered` list each key comes before everything it needs. Such a list is what a
depth-first search leaves that found no cycle: within it there is none (`Layered.irrefl`),
and a property that one of its keys has, one has at the bottom (`Layered.exists_last`). -/
namespace LeanFlow.General

variable {κ : Type}

/-- There is a path of one or more edges. -/
def Needs (next : κ → List κ) : κ → κ → Prop := Relation.TransGen fun a b => b ∈ next a

/-- No key needs itself. -/
def Acyclic (next : κ → List κ) : Prop := ∀ key, ¬Needs next key key

def Layered (next : κ → List κ) : List κ → Prop
  | [] => True
  | key :: rest => next key ⊆ rest ∧ key ∉ rest ∧ Layered next rest

namespace Layered

variable {next : κ → List κ} {l : List κ}

theorem nodup (h : Layered next l) : l.Nodup := by
  induction l with
  | nil => exact List.nodup_nil
  | cons key rest ih => exact List.nodup_cons.mpr ⟨h.2.1, ih h.2.2⟩

theorem next_subset (h : Layered next l) {key : κ} (hkey : key ∈ l) : next key ⊆ l := by
  induction l with
  | nil => cases hkey
  | cons first rest ih =>
    rcases List.mem_cons.mp hkey with rfl | hkey
    · exact fun x hx => List.mem_cons_of_mem _ (h.1 hx)
    · exact fun x hx => List.mem_cons_of_mem _ (ih h.2.2 hkey hx)

theorem closed (h : Layered next l) {a b : κ} (ha : a ∈ l) (hpath : Relation.ReflTransGen (fun a b => b ∈ next a) a b) : b ∈ l := by
  induction hpath with
  | refl => exact ha
  | tail _ hstep ih => exact h.next_subset ih hstep

theorem needs (h : Layered next l) {a b : κ} (ha : a ∈ l) (hneeds : Needs next a b) : b ∈ l := h.closed ha hneeds.to_reflTransGen

/-- The first key needs only the others. -/
theorem needs_head {key : κ} {rest : List κ} (h : Layered next (key :: rest)) {b : κ} (hneeds : Needs next key b) : b ∈ rest := by
  obtain ⟨c, hc, hpath⟩ := Relation.TransGen.head'_iff.mp hneeds
  exact h.2.2.closed (h.1 hc) hpath

theorem irrefl (h : Layered next l) {key : κ} (hkey : key ∈ l) : ¬Needs next key key := by
  induction l with
  | nil => cases hkey
  | cons first rest ih =>
    rcases List.mem_cons.mp hkey with rfl | hkey
    · exact fun hneeds => h.2.1 (h.needs_head hneeds)
    · exact ih h.2.2 hkey

/-- No key needs an earlier one. -/
theorem pairwise (h : Layered next l) : l.Pairwise fun earlier later => ¬Needs next later earlier := by
  induction l with
  | nil => exact .nil
  | cons key rest ih => exact .cons (fun other hother hneeds => h.2.1 (h.2.2.needs hother hneeds)) (ih h.2.2)

/-- Of the keys with a property that there is a path to, one needs no other directly. -/
theorem exists_last (h : Layered next l) {P : κ → Prop} {a : κ} (ha : a ∈ l) (hP : P a) :
    ∃ b, Relation.ReflTransGen (fun a b => b ∈ next a) a b ∧ P b ∧ ∀ c ∈ next b, ¬P c := by
  induction l generalizing a with
  | nil => cases ha
  | cons key rest ih =>
    rcases List.mem_cons.mp ha with rfl | ha
    · by_cases hmore : ∃ c ∈ next a, P c
      · obtain ⟨c, hc, hPc⟩ := hmore
        obtain ⟨b, hpath, hb⟩ := ih h.2.2 (h.1 hc) hPc
        exact ⟨b, .head hc hpath, hb⟩
      · exact ⟨a, .refl, hP, fun c hc hPc => hmore ⟨c, hc, hPc⟩⟩
    · exact ih h.2.2 ha hP

end Layered

end LeanFlow.General
