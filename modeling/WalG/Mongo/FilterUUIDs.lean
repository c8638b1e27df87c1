import WalG.Foundation.Stream
import WalG.Foundation.Text

/-! # Removing the collection UUIDs of an operation

The loop over the operations nested in an `applyOps` command filters the zero values of its new list
in place of the operations, and the command is rebuilt from that list alone.
-/
namespace WalG.Mongo
open Foundation List

mutual

/-- An operation: what it does, its namespace, its UUID, its other data and its object. -/
inductive TypedOp where
  | mk (operation ns : Text) (ui : Option Bytes) (rest : Bytes) (object : List ObjectField)

/-- A field of an object. Only the operations under `applyOps` are looked into. -/
inductive ObjectField where
  | applyOps (ops : List TypedOp)
  | other (key : Text) (value : Bytes)

end

inductive FilterError where
  | unwrapNestedApplyOps (value : Bytes)

def applyOpsKey : Text := "applyOps".toList

def zeroOp : TypedOp := .mk [] [] none [] []

def isApplyOpsCmd (cmd : List ObjectField) : Bool :=
  cmd.any fun
    | .applyOps _ => true
    | .other key _ => decide (key = applyOpsKey)

/-- The last of several fields of the name counts. -/
def unwrapNestedApplyOps (doc : List ObjectField) : Except FilterError (List TypedOp) :=
  doc.foldlM (fun ops field =>
    match field with
    | .applyOps ops => .ok ops
    | .other key value => if key = applyOpsKey then .error (.unwrapNestedApplyOps value) else .ok ops) []

def wrapNestedApplyOps (ops : List TypedOp) : List ObjectField := [.applyOps ops]

def TypedOp.fieldCount : TypedOp → ℕ
  | .mk _ _ _ _ object => object.length

theorem length_pos_of_isApplyOpsCmd {cmd : List ObjectField} (h : isApplyOpsCmd cmd = true) : 0 < cmd.length := by
  cases cmd with
  | nil => cases h
  | cons => exact Nat.succ_pos _

mutual

def filterUUIDs : TypedOp → Except FilterError TypedOp
  | .mk operation ns _ rest object =>
    if _ : operation = ['c'] ∧ isApplyOpsCmd object = true then do
      let filtered ← newFilteredApplyOps object
      .ok (.mk operation ns none rest filtered)
    else .ok (.mk operation ns none rest object)
termination_by op => 2 * op.fieldCount
decreasing_by
  have hpos := length_pos_of_isApplyOpsCmd (And.right ‹_›)
  simp only [TypedOp.fieldCount]
  omega

def newFilteredApplyOps (cmd : List ObjectField) : Except FilterError (List ObjectField) := do
  let ops ← unwrapNestedApplyOps cmd
  -- filtered[i], which is still zero, takes the place of ops[i]
  let filtered ← ops.mapM fun _ => filterUUIDs zeroOp
  .ok (wrapNestedApplyOps filtered)
termination_by 1
decreasing_by decide

end

mutual

/-- The operation without its UUIDs, and otherwise the same. -/
def TypedOp.strip : TypedOp → TypedOp
  | .mk operation ns _ rest object => .mk operation ns none rest (if operation = ['c'] then stripFields object else object)

def stripFields : List ObjectField → List ObjectField
  | [] => []
  | field :: fields => field.strip :: stripFields fields

def ObjectField.strip : ObjectField → ObjectField
  | .applyOps ops => .applyOps (stripOps ops)
  | .other key value => .other key value

def stripOps : List TypedOp → List TypedOp
  | [] => []
  | op :: ops => op.strip :: stripOps ops

end

theorem stripOps_eq_map (ops : List TypedOp) : stripOps ops = ops.map TypedOp.strip := by
  induction ops with
  | nil => rfl
  | cons op ops ih => rw [stripOps, ih, map_cons]

theorem filterUUIDs_zeroOp : filterUUIDs zeroOp = .ok zeroOp := by
  simp [zeroOp, filterUUIDs]

/-- Of the nested operations only their number is kept. -/
theorem newFilteredApplyOps_eq (cmd : List ObjectField) :
    newFilteredApplyOps cmd =
      (unwrapNestedApplyOps cmd).map fun ops => [.applyOps (replicate ops.length zeroOp)] := by
  have hzero (ops : List TypedOp) :
      (ops.mapM fun _ => filterUUIDs zeroOp) = .ok (replicate ops.length zeroOp) := by
    rw [filterUUIDs_zeroOp]
    induction ops with
    | nil => rfl
    | cons op ops ih =>
      rw [mapM_cons, ih]
      rfl
  simp only [newFilteredApplyOps, hzero]
  cases unwrapNestedApplyOps cmd <;> rfl

/-- An operation that the code does not spoil: it is no `applyOps` command, or one of nothing but
operations that are zero but for their UUIDs. -/
def TypedOp.Spared : TypedOp → Prop
  | .mk operation _ _ _ object =>
    ¬ (operation = ['c'] ∧ isApplyOpsCmd object = true) ∨
      ∃ ops, object = [.applyOps ops] ∧ ∀ op ∈ ops, op.strip = zeroOp

theorem stripFields_of_not_cmd {cmd : List ObjectField} (h : isApplyOpsCmd cmd = false) : stripFields cmd = cmd := by
  induction cmd with
  | nil => rfl
  | cons field cmd ih =>
    simp only [isApplyOpsCmd, any_cons, Bool.or_eq_false_iff] at h
    cases field with
    | applyOps ops => cases h.1
    | other key value => rw [stripFields, ih h.2, ObjectField.strip]

/-- Only the UUIDs are removed if and only if the operation is spared. -/
theorem filterUUIDs_iff (op : TypedOp) : filterUUIDs op = .ok op.strip ↔ op.Spared := by
  obtain ⟨operation, ns, ui, rest, object⟩ := op
  rw [filterUUIDs, TypedOp.strip, TypedOp.Spared]
  by_cases h : operation = ['c'] ∧ isApplyOpsCmd object = true
  · obtain ⟨rfl, hcmd⟩ := h
    simp only [hcmd, and_self, dif_pos, not_true_eq_false, false_or, if_true, newFilteredApplyOps_eq]
    constructor
    · intro h
      obtain ⟨filtered, hfiltered, h⟩ := bind_ok h
      injection h with h
      injection h with _ _ _ _ h
      subst h
      match object, hfiltered with
      | [.applyOps ops], hfiltered =>
        simp [unwrapNestedApplyOps, Except.map, stripFields, ObjectField.strip, stripOps_eq_map] at hfiltered
        exact ⟨ops, rfl, fun op hop => eq_of_mem_replicate (hfiltered ▸ mem_map_of_mem hop)⟩
      | [.other key value], hfiltered =>
        cases hops : unwrapNestedApplyOps [.other key value] <;>
          simp [hops, Except.map, stripFields, ObjectField.strip] at hfiltered
      | field :: second :: fields, hfiltered =>
        cases hops : unwrapNestedApplyOps (field :: second :: fields) <;>
          simp [hops, Except.map, stripFields] at hfiltered
    · rintro ⟨ops, rfl, hzero⟩
      have hmap : ops.map TypedOp.strip = replicate ops.length zeroOp :=
        eq_replicate_iff.mpr ⟨length_map _, by simpa using hzero⟩
      simp [stripFields, ObjectField.strip, stripOps_eq_map, hmap]
      rfl
  · rw [dif_neg h]
    refine iff_of_true ?_ (.inl h)
    split_ifs with hc
    · rw [stripFields_of_not_cmd (Bool.eq_false_iff.mpr fun hcmd => h ⟨hc, hcmd⟩)]
    · rfl

/-- A single insertion in an `applyOps` command comes back as the zero operation. -/
theorem filterUUIDs_loses_nested :
    filterUUIDs (.mk ['c'] ['d'] none [] [.applyOps [.mk ['i'] ['d', '.', 'x'] (some [1]) [] [.other ['a'] [2]]]]) =
      .ok (.mk ['c'] ['d'] none [] [.applyOps [zeroOp]]) ∧
    TypedOp.strip (.mk ['c'] ['d'] none [] [.applyOps [.mk ['i'] ['d', '.', 'x'] (some [1]) [] [.other ['a'] [2]]]]) ≠
      .mk ['c'] ['d'] none [] [.applyOps [zeroOp]] := by
  constructor
  · simp [filterUUIDs, isApplyOpsCmd, newFilteredApplyOps_eq]
    rfl
  · simp [TypedOp.strip, stripFields, ObjectField.strip, stripOps, zeroOp]

end WalG.Mongo
