import Mathlib.Data.List.Nodup
import OpenDocument.Proofs.Archive
import OpenDocument.Proofs.Zip.Session

/-!
# OpenDocument.Proofs.Zip.Log

A writer of archives and the log of the calls made on it.  As long as every call was taken, the
writer is what the log says (`Reflects`): it has the written items in its account, or, behind a
finish, their archive in its sink.
-/

namespace OpenDocument.Zip

open Archive (Made Traced)
open Keeping (held)

/-- The `write` that gives an item to an archive, as a call that was taken. -/
def Item.taken (i : Item) : Made :=
  ⟨.write i.path i.data i.method, none⟩

theorem Item.taken_injective : Function.Injective Item.taken := by
  rintro ⟨path, data, method⟩ ⟨path', data', method'⟩ h
  cases h
  rfl

/-- A `finish` that was taken. -/
def finished : Made :=
  ⟨.finish, none⟩

theorem finished_not_mem_taken (items : List Item) : finished ∉ items.map Item.taken := by
  intro h
  obtain ⟨i, -, hi⟩ := List.mem_map.mp h
  cases hi

/-- The items that an archive has taken. -/
def takenItems (calls : List Made) : List Item :=
  calls.filterMap fun
    | ⟨.write path data method, none⟩ => some ⟨path, data, method⟩
    | _ => none

theorem takenItems_map_taken (items : List Item) : takenItems (items.map Item.taken) = items := by
  rw [takenItems, List.filterMap_map]
  exact List.filterMap_some

variable {σ : Type} [Sink σ] [Keeping σ]

namespace Writer

/-- What a writer is after calls that were all taken. -/
inductive Reflects : List Made → Writer σ → Prop
  | taking {items : List Item} {session : Session σ} (h : session.Account items)
      (hi : ∀ i ∈ items, i.Fits) (hd : (items.map Item.name).Nodup) :
      Reflects (items.map Item.taken) (.taking session)
  | complete {items : List Item} {sink : σ} (h : held sink = archiveBytes items)
      (hf : Fits items) (hd : (items.map Item.name).Nodup) :
      Reflects (items.map Item.taken ++ [finished]) (.complete sink)

/-- One more call that was taken keeps what a writer `Reflects`. -/
theorem Reflects.perform {calls : List Made} {w w' : Writer σ} (h : Reflects calls w)
    {c : Archive.Call} (hc : Archive.perform w c = (.ok (), w')) :
    Reflects (calls ++ [⟨c, none⟩]) w' := by
  cases h with
  | complete => cases c <;> cases hc
  | @taking items session h hi hd =>
      cases c with
      | write path data method =>
          cases hs : session.write path data method with
          | mk result session' =>
              simp only [Archive.perform, Archive.writeEntry, Writer.writeEntry, hs] at hc
              cases result with
              | error fault => cases hc
              | ok u =>
                  cases hc
                  obtain ⟨haccount, hfit, hname⟩ := h.write (i := .mk path data method) hs
                  have htaken : items.map Item.taken ++ [⟨.write path data method, none⟩]
                      = (items ++ [Item.mk path data method]).map Item.taken := by
                    rw [List.map_append]
                    rfl
                  rw [htaken]
                  refine .taking haccount ?_ ?_
                  · intro i hmem
                    rcases List.mem_append.mp hmem with hmem | hmem
                    · exact hi i hmem
                    · rw [List.mem_singleton.mp hmem]
                      exact hfit
                  · rw [List.map_append, List.map_singleton, ← List.concat_eq_append]
                    exact List.Nodup.concat hname hd
      | finish =>
          cases hs : session.finish with
          | mk result session' =>
              simp only [Archive.perform, Archive.finish, Writer.finish, hs] at hc
              cases result with
              | error fault => cases hc
              | ok u =>
                  cases hc
                  obtain ⟨hheld, hfit⟩ := h.finish hi hs
                  exact .complete hheld hfit hd

/-- A writer whose log ends with `finished` is complete, and has the archive of the items in its
sink. -/
theorem Reflects.exists_complete {items : List Item} {w : Writer σ}
    (h : Reflects (items.map Item.taken ++ [finished]) w) :
    ∃ sink, w = .complete sink ∧ held sink = archiveBytes items ∧ Fits items
      ∧ (items.map Item.name).Nodup := by
  generalize hcalls : items.map Item.taken ++ [finished] = calls at h
  cases h with
  | @taking items' session h hi hd =>
      have hmem : finished ∈ items.map Item.taken ++ [finished] :=
        List.mem_append_right _ (List.mem_singleton_self _)
      rw [hcalls] at hmem
      exact absurd hmem (finished_not_mem_taken items')
  | @complete items' sink h hf hd =>
      have heq := List.map_injective_iff.mpr Item.taken_injective (List.append_cancel_right hcalls)
      rw [heq]
      exact ⟨sink, rfl, h, hf, hd⟩

/-- A writer that `Reflects` its log, if every call in it was taken. -/
def Sound (t : Traced (Writer σ)) : Prop :=
  (∀ made ∈ t.calls, made.failure = none) → Reflects t.calls t.archive

theorem sound_new {sink : σ} (h : held sink = []) : Sound ⟨Writer.new sink, []⟩ := by
  intro _
  have hsettled : ({ sink } : Session σ).Settled [] := by
    refine ⟨?_, h, rfl, rfl⟩
    rw [Session.AtEnd, h]
    rfl
  exact .taking (.settled hsettled) (by simp) List.nodup_nil

/-- No call makes a writer other than its log says: it stays `Sound`. -/
theorem Sound.perform {t : Traced (Writer σ)} (h : Sound t) (c : Archive.Call) :
    Sound (Archive.perform t c).2 := by
  intro hall
  rw [Traced.perform_eq] at hall ⊢
  have hlast := hall ⟨c, _⟩ (List.mem_append_right _ (List.mem_singleton_self _))
  cases hc : Archive.perform t.archive c with
  | mk result w' =>
      rw [hc] at hlast
      cases result with
      | error e => cases hlast
      | ok u =>
          have hbefore : Reflects t.calls t.archive :=
            h fun made hm => hall made (List.mem_append_left _ hm)
          exact hbefore.perform hc

end Writer

end OpenDocument.Zip
