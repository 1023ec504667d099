import Mathlib.Data.List.Nodup
import Mathlib.Data.Prod.Basic
import Keybinder.KeyNames
import Keybinder.Library.LastWrites

/-!
# Key maps

What a `BiMap` finds after any calls of `insert`: in each direction the last
insert wins, and an insert that replaces an entry of one direction leaves the
entry of the other where it is.  So two keys can share a code, as on Windows
the two Enter keys do, and both directions undo each other exactly when every
insert that is overtaken in one of them is overtaken in the other.
-/

namespace Keybinder

open LastWrites

namespace BiMap

variable {κ ν : Type} {entries : List (κ × ν)} {key : κ} {value : ν}

def insertAll (m : BiMap κ ν) (calls : List (κ × ν)) : BiMap κ ν :=
  calls.foldl (fun m entry ↦ m.insert entry.1 entry.2) m

theorem insertAll_ofList (list calls : List (κ × ν)) :
    (ofList list).insertAll calls = ofList (list ++ calls) := by
  rw [insertAll, ofList, ofList, List.foldl_append]

/-- The entries of both directions, in the order of their inserts. -/
theorem maps_insertAll (m : BiMap κ ν) (calls : List (κ × ν)) :
    (m.insertAll calls).forwardMap = calls.reverse ++ m.forwardMap ∧
      (m.insertAll calls).backwardMap = (calls.map Prod.swap).reverse ++ m.backwardMap := by
  induction calls generalizing m with
  | nil => exact ⟨rfl, rfl⟩
  | cons entry calls ih =>
      obtain ⟨key, value⟩ := entry
      obtain ⟨hforward, hbackward⟩ := ih (m.insert key value)
      have hcons : m.insertAll ((key, value) :: calls) = (m.insert key value).insertAll calls := rfl
      rw [hcons, hforward, hbackward]
      simp [insert]

theorem forwardMap_ofList : (ofList entries).forwardMap = entries.reverse := by
  have hmaps := maps_insertAll ({} : BiMap κ ν) entries
  rw [List.append_nil] at hmaps
  exact hmaps.1

theorem findForward_ofList [DecidableEq κ] :
    (ofList entries).findForward key = some value ↔ LastBy Prod.fst entries (key, value) := by
  rw [findForward, forwardMap_ofList, lookup_reverse]

theorem findBackward_ofList [DecidableEq ν] :
    (ofList entries).findBackward value = some key ↔ LastBy Prod.snd entries (key, value) := by
  have hmaps := (maps_insertAll ({} : BiMap κ ν) entries).2
  rw [List.append_nil] at hmaps
  have hbackward : (ofList entries).backwardMap = (entries.map Prod.swap).reverse := hmaps
  have hswap : LastBy Prod.fst (entries.map Prod.swap) (Prod.swap (key, value)) ↔
      LastBy (fun entry ↦ entry.swap.1) entries (key, value) := lastBy_map Prod.swap_injective
  rw [findBackward, hbackward, lookup_reverse]
  exact hswap

variable [DecidableEq κ] [DecidableEq ν]

/-- Whatever is found in one direction leads back in the other. -/
def Inverse (m : BiMap κ ν) : Prop :=
  ∀ key value, m.findForward key = some value ↔ m.findBackward value = some key

theorem inverse_ofList :
    (ofList entries).Inverse ↔ OvertakenAlike Prod.fst Prod.snd entries := by
  rw [← lastBy_congr_iff, Inverse, Prod.forall]
  simp only [findForward_ofList, findBackward_ofList]

/-- The Enter keys of the Windows key map share the code `VK_RETURN`. -/
def sharedEnter : List (ℕ × KeyCode) := [(13, .enter), (13, .numpadEnter)]

/-- Either key is sent with the code that they share. -/
example : (ofList sharedEnter).findBackward .enter = some 13 ∧
    (ofList sharedEnter).findBackward .numpadEnter = some 13 := by decide

/-- The code leads to the Enter key inserted last, and both lead to the code. -/
theorem sharedEnter_not_inverse : ¬ (ofList sharedEnter).Inverse := by
  intro h
  have hforward := (h 13 .enter).mpr rfl
  cases hforward

/-- In either direction the last insert is found; the directions undo each
other exactly when the inserts are overtaken in both alike. -/
theorem find_lastInsert (list calls : List (κ × ν)) :
    (∀ key value, ((ofList list).insertAll calls).findForward key = some value ↔
        LastBy Prod.fst (list ++ calls) (key, value)) ∧
      (∀ key value, ((ofList list).insertAll calls).findBackward value = some key ↔
        LastBy Prod.snd (list ++ calls) (key, value)) ∧
      (((ofList list).insertAll calls).Inverse ↔
        OvertakenAlike Prod.fst Prod.snd (list ++ calls)) := by
  rw [insertAll_ofList]
  exact ⟨fun _ _ ↦ findForward_ofList, fun _ _ ↦ findBackward_ofList, inverse_ofList⟩

end BiMap

end Keybinder
