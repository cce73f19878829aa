import CopyOnBind.Store.Basic
/-!
# Reading a store after a change

A change of one container is read back at its handle and leaves every other
container as it was; a new container is read back at its handle and leaves
every container as it was that the store knew before. What the store does not
know reads as empty.
-/

namespace CopyOnBind.Store

variable {s : Store}

/-! ## Arrays -/

section Array

variable {a b : ArrayId} {f : ArrayCell → ArrayCell} {elements : Array Value}

theorem array_mem (lt : a.index < s.arrays.size) : s.array a ∈ s.arrays := by
  simp [array, lt]

theorem array_of_le (le : s.arrays.size ≤ a.index) : s.array a = {} := by
  simp [array, Array.getD_eq_getD_getElem?, Array.getElem?_eq_none le]

theorem array_modifyArray_self (lt : a.index < s.arrays.size) :
    (s.modifyArray a f).array a = f (s.array a) := by
  simp [array, modifyArray, Array.getD_eq_getD_getElem?, lt, Array.getElem_modify_self]

theorem array_modifyArray_of_ne (ne : b ≠ a) : (s.modifyArray a f).array b = s.array b := by
  have index_ne : a.index ≠ b.index := fun eq => ne (by cases a; cases b; simp_all)
  simp [array, modifyArray, Array.getD_eq_getD_getElem?, Array.getElem?_modify, index_ne]

@[simp] theorem array_newArray_self :
    (s.newArray elements).2.array (s.newArray elements).1 = { elements } := by
  simp [array, newArray]

theorem array_newArray_of_lt (lt : b.index < s.arrays.size) :
    (s.newArray elements).2.array b = s.array b := by
  simp [array, newArray, Array.getElem?_push, Nat.ne_of_lt lt]

@[simp] theorem array_modifyHash {h : HashId} {g : Table → Table} :
    (s.modifyHash h g).array a = s.array a := rfl

@[simp] theorem array_newHash {t : Table} : (s.newHash t).2.array a = s.array a := rfl

@[simp] theorem array_modifyScope {e : ScopeId} {g : Scope → Scope} :
    (s.modifyScope e g).array a = s.array a := rfl

@[simp] theorem array_newScope {parent : Option ScopeId} :
    (s.newScope parent).2.array a = s.array a := rfl

end Array

/-! ## Hashes -/

section Hash

variable {h i : HashId} {f : Table → Table} {t : Table}

theorem hash_mem (lt : h.index < s.hashes.size) : s.hash h ∈ s.hashes := by
  simp [hash, lt]

theorem hash_of_le (le : s.hashes.size ≤ h.index) : s.hash h = {} := by
  simp [hash, Array.getD_eq_getD_getElem?, Array.getElem?_eq_none le]

theorem hash_modifyHash_self (lt : h.index < s.hashes.size) :
    (s.modifyHash h f).hash h = f (s.hash h) := by
  simp [hash, modifyHash, Array.getD_eq_getD_getElem?, lt, Array.getElem_modify_self]

theorem hash_modifyHash_of_ne (ne : i ≠ h) : (s.modifyHash h f).hash i = s.hash i := by
  have index_ne : h.index ≠ i.index := fun eq => ne (by cases h; cases i; simp_all)
  simp [hash, modifyHash, Array.getD_eq_getD_getElem?, Array.getElem?_modify, index_ne]

@[simp] theorem hash_newHash_self :
    (s.newHash t).2.hash (s.newHash t).1 = t := by
  simp [hash, newHash]

theorem hash_newHash_of_lt (lt : i.index < s.hashes.size) :
    (s.newHash t).2.hash i = s.hash i := by
  simp [hash, newHash, Array.getElem?_push, Nat.ne_of_lt lt]

@[simp] theorem hash_modifyArray {a : ArrayId} {g : ArrayCell → ArrayCell} :
    (s.modifyArray a g).hash h = s.hash h := rfl

@[simp] theorem hash_newArray {elements : Array Value} :
    (s.newArray elements).2.hash h = s.hash h := rfl

@[simp] theorem hash_modifyScope {e : ScopeId} {g : Scope → Scope} :
    (s.modifyScope e g).hash h = s.hash h := rfl

@[simp] theorem hash_newScope {parent : Option ScopeId} :
    (s.newScope parent).2.hash h = s.hash h := rfl

end Hash

/-! ## Scopes -/

section Scope

variable {e d : ScopeId} {f : Scope → Scope} {parent : Option ScopeId}

theorem scope_mem (lt : e.index < s.scopes.size) : s.scope e ∈ s.scopes := by
  simp [scope, lt]

theorem scope_of_le (le : s.scopes.size ≤ e.index) : s.scope e = {} := by
  simp [scope, Array.getD_eq_getD_getElem?, Array.getElem?_eq_none le]

theorem scope_modifyScope_self (lt : e.index < s.scopes.size) :
    (s.modifyScope e f).scope e = f (s.scope e) := by
  simp [scope, modifyScope, Array.getD_eq_getD_getElem?, lt, Array.getElem_modify_self]

theorem scope_modifyScope_of_ne (ne : d ≠ e) : (s.modifyScope e f).scope d = s.scope d := by
  have index_ne : e.index ≠ d.index := fun eq => ne (by cases e; cases d; simp_all)
  simp [scope, modifyScope, Array.getD_eq_getD_getElem?, Array.getElem?_modify, index_ne]

@[simp] theorem scope_newScope_self :
    (s.newScope parent).2.scope (s.newScope parent).1 = { parent } := by
  simp [scope, newScope]

theorem scope_newScope_of_lt (lt : d.index < s.scopes.size) :
    (s.newScope parent).2.scope d = s.scope d := by
  simp [scope, newScope, Array.getElem?_push, Nat.ne_of_lt lt]

@[simp] theorem scope_modifyArray {a : ArrayId} {g : ArrayCell → ArrayCell} :
    (s.modifyArray a g).scope e = s.scope e := rfl

@[simp] theorem scope_newArray {elements : Array Value} :
    (s.newArray elements).2.scope e = s.scope e := rfl

@[simp] theorem scope_modifyHash {h : HashId} {g : Table → Table} :
    (s.modifyHash h g).scope e = s.scope e := rfl

@[simp] theorem scope_newHash {t : Table} : (s.newHash t).2.scope e = s.scope e := rfl

end Scope

end CopyOnBind.Store
