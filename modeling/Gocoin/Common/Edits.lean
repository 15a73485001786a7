import Gocoin.Common.Types

/-!
# Common/Edits — writes one after the other

An operation that writes several keys does so one after the other, without a batch.  Its writes are
a list of edits; a crash leaves the edits before it.
-/

namespace Gocoin

/-- A write to the store, or a delete. -/
inductive Edit where
  | put (k v : Bytes)
  | delete (k : Bytes)

/-- The key an edit touches. -/
def Edit.key : Edit → Bytes
  | .put k _ => k
  | .delete k => k

/-- What the key holds afterwards. -/
def Edit.value : Edit → Option Bytes
  | .put _ v => some v
  | .delete _ => none

namespace Db

variable (db : Db)

/-- One edit. -/
def edit : Edit → Db
  | .put k v => db.put k v
  | .delete k => db.delete k

/-- Edits, in order. -/
def edits (es : List Edit) : Db := es.foldl edit db

/-- What a crash after the first `j` edits leaves. -/
def crashed (es : List Edit) (j : ℕ) : Db := db.edits (es.take j)

@[simp] theorem edits_nil : db.edits [] = db := rfl

@[simp] theorem edits_cons (e : Edit) (es : List Edit) :
    db.edits (e :: es) = (db.edit e).edits es := rfl

theorem edits_append (es es' : List Edit) :
    db.edits (es ++ es') = (db.edits es).edits es' := List.foldl_append

@[simp] theorem crashed_zero (es : List Edit) : db.crashed es 0 = db := rfl

variable {es : List Edit} {T : Set Bytes}

/-- A crash after the last edit. -/
theorem crashed_of_length_le {j : ℕ} (h : es.length ≤ j) (db : Db) :
    db.crashed es j = db.edits es := by
  rw [crashed, List.take_of_length_le h]

theorem crashed_append (es es' : List Edit) (j : ℕ) :
    db.crashed (es ++ es') j = (db.crashed es j).crashed es' (j - es.length) := by
  rw [crashed, List.take_append, edits_append]
  rfl

theorem sameOff_edit {e : Edit} (h : e.key ∈ T) (db : Db) : SameOff T db (db.edit e) := by
  cases e with
  | put k v => exact sameOff_put h db v
  | delete k => exact sameOff_delete h db

/-- Edits change nothing but their keys. -/
theorem sameOff_edits (h : ∀ e ∈ es, e.key ∈ T) (db : Db) : SameOff T db (db.edits es) := by
  induction es generalizing db with
  | nil => exact .refl T db
  | cons e es ih =>
    exact (sameOff_edit (h e List.mem_cons_self) db).trans
      (ih (fun e' he' => h e' (List.mem_cons_of_mem e he')) _)

theorem sameOff_crashed (h : ∀ e ∈ es, e.key ∈ T) (db : Db) (j : ℕ) :
    SameOff T db (db.crashed es j) :=
  sameOff_edits (fun e he => h e (List.mem_of_mem_take he)) db

theorem get_edit_self (e : Edit) : (db.edit e).get e.key = e.value := by
  cases e with
  | put k v => exact get_put_self db k v
  | delete k => exact get_delete_self db k

/-- **What a key holds after edits**: what it held, or what one of them put there. -/
theorem get_edits (es : List Edit) (k : Bytes) :
    (db.edits es).get k = db.get k ∨ ∃ e ∈ es, e.key = k ∧ (db.edits es).get k = e.value := by
  induction es generalizing db with
  | nil => exact .inl rfl
  | cons e es ih =>
    rcases ih (db.edit e) with h | ⟨e', he', hk, h⟩
    · by_cases hk : e.key = k
      · refine .inr ⟨e, List.mem_cons_self, hk, h.trans ?_⟩
        rw [← hk, get_edit_self]
      · exact .inl (h.trans (sameOff_edit (Set.mem_singleton e.key) db k (Ne.symm hk)))
    · exact .inr ⟨e', List.mem_cons_of_mem e he', hk, h⟩

end Db

end Gocoin
