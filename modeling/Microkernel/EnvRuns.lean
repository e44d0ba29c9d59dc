/-
# The environment is a map

Whatever is set and unset, the variables of `src/env.c` are a map with room for `ENV_MAX_VARS` names, as
long as the names fit in their buffers.
-/
import Microkernel.Env
import Microkernel.SlotTable

namespace Microkernel

variable {env : Env} {name value : List UInt8}

/-- `env_count`. -/
def envCount (env : Env) : ℕ := (List.finRange envMaxVars).countP fun i => (env i).active

/-- The names and values of the active variables. -/
def envView (env : Env) : SlotTable envMaxVars (List UInt8) (List UInt8) :=
  fun i => if (env i).active then some ((env i).key, (env i).val) else none

theorem envView_isSome (env : Env) (i : Fin envMaxVars) :
    (envView env i).isSome = (env i).active := by
  unfold envView
  cases (env i).active <;> rfl

theorem envFind_eq (env : Env) (name : List UInt8) : envFind env name = (envView env).find name := by
  unfold envFind SlotTable.find
  congr 1
  funext i
  unfold envView
  cases (env i).active
  · rfl
  · rw [if_pos rfl, Bool.true_and, Option.any_some]
    exact beq_eq_decide _ _

theorem envFree_eq (env : Env) :
    ((List.finRange envMaxVars).find? fun i => !(env i).active) = (envView env).free := by
  unfold SlotTable.free
  congr 1
  funext i
  rw [← envView_isSome, Option.not_isSome]

theorem envGet_eq (env : Env) (name : List UInt8) : envGet env name = (envView env).get name := by
  unfold envGet SlotTable.get
  rw [envFind_eq]
  cases hfind : (envView env).find name with
  | none => rfl
  | some i =>
    obtain ⟨v, hv⟩ := SlotTable.find_eq_some hfind
    rw [Option.bind_some, hv]
    unfold envView at hv
    split_ifs at hv
    cases hv
    rfl

theorem envCount_eq (env : Env) : envCount env = (envView env).count := by
  unfold envCount SlotTable.count
  congr 1
  funext i
  exact (envView_isSome env i).symm

/-- A change of one variable is a change of one slot. -/
theorem envView_update (env : Env) (i : Fin envMaxVars) (v : EnvVar) :
    envView (Function.update env i v) =
      Function.update (envView env) i (if v.active then some (v.key, v.val) else none) := by
  funext j
  by_cases hj : j = i
  · subst hj
    rw [Function.update_self]
    unfold envView
    rw [Function.update_self]
  · rw [Function.update_of_ne hj]
    unfold envView
    rw [Function.update_of_ne hj]

/-- **`env_set`** puts a name that fits and what fits of the value into the table. -/
theorem envView_envSet (env : Env) (hname : name.length ≤ envKeyLen - 1) (value : List UInt8) :
    envView (envSet env name value) = (envView env).put name (value.take (envValLen - 1)) := by
  unfold envSet SlotTable.put
  rw [envFind_eq, envFree_eq]
  cases hfind : (envView env).find name with
  | some i =>
    obtain ⟨v, hv⟩ := SlotTable.find_eq_some hfind
    unfold envView at hv
    split_ifs at hv with hactive
    dsimp only
    rw [envView_update]
    have hkey : (env i).key = name := congrArg Prod.fst (Option.some.inj hv)
    show Function.update (envView env) i (if (env i).active then
      some ((env i).key, value.take (envValLen - 1)) else none) = _
    rw [if_pos hactive, hkey]
  | none =>
    cases hfree : (envView env).free with
    | none => rfl
    | some i =>
      dsimp only
      rw [envView_update]
      show Function.update (envView env) i
        (some (name.take (envKeyLen - 1), value.take (envValLen - 1))) = _
      rw [List.take_of_length_le hname]

/-- **`env_unset`** takes a name out. -/
theorem envView_envUnset (env : Env) (name : List UInt8) :
    envView (envUnset env name) = (envView env).remove name := by
  unfold envUnset SlotTable.remove
  rw [envFind_eq]
  cases (envView env).find name with
  | none => rfl
  | some i =>
    dsimp only
    rw [envView_update]
    rfl

/-! ## Runs -/

/-- The calls that change the environment. -/
inductive EnvOp where
  | set (name value : List UInt8)
  | unset (name : List UInt8)

namespace EnvOp

def run (env : Env) : EnvOp → Env
  | .set name value => envSet env name value
  | .unset name => envUnset env name

/-- What they do to a map. -/
def onMap (m : BoundedMap envMaxVars (List UInt8) (List UInt8)) :
    EnvOp → BoundedMap envMaxVars (List UInt8) (List UInt8)
  | .set name value => m.put name (value.take (envValLen - 1))
  | .unset name => m.remove name

/-- The name fits in its buffer. -/
def Fits : EnvOp → Prop
  | .set name _ => name.length ≤ envKeyLen - 1
  | .unset _ => True

end EnvOp

/-- One call does to the variables what it does to the map. -/
theorem EnvOp.represents {op : EnvOp} {m : BoundedMap envMaxVars (List UInt8) (List UInt8)}
    (hfits : op.Fits) (h : (envView env).Represents m) :
    (envView (op.run env)).Represents (op.onMap m) := by
  cases op with
  | set name value =>
    show (envView (envSet env name value)).Represents _
    rw [envView_envSet env hfits value]
    exact h.put name _
  | unset name =>
    show (envView (envUnset env name)).Represents _
    rw [envView_envUnset]
    exact h.remove name

/-- **The environment is a map** with at most `ENV_MAX_VARS` names: after any calls with names that fit,
every name has the value that it has in the map, and `env_count` is the number of its names. -/
theorem env_isMap (ops : List EnvOp) (hfits : ∀ op ∈ ops, op.Fits) :
    let env := ops.foldl EnvOp.run Env.empty
    let m := ops.foldl EnvOp.onMap (BoundedMap.empty envMaxVars (List UInt8) (List UInt8))
    (∀ name, envGet env name = m.lookup name) ∧ envCount env = m.keys.card := by
  have hrun : ∀ (ops : List EnvOp) (env : Env)
      (m : BoundedMap envMaxVars (List UInt8) (List UInt8)), (∀ op ∈ ops, op.Fits) →
      (envView env).Represents m →
        (envView (ops.foldl EnvOp.run env)).Represents (ops.foldl EnvOp.onMap m) := by
    intro ops
    induction ops with
    | nil =>
      intro env m _ h
      exact h
    | cons op ops ih =>
      intro env m hfits h
      exact ih _ _ (fun o ho => hfits o (List.mem_cons_of_mem _ ho))
        (EnvOp.represents (hfits op List.mem_cons_self) h)
  have hend := hrun ops Env.empty _ hfits SlotTable.represents_empty
  refine ⟨fun name => ?_, ?_⟩
  · rw [envGet_eq, hend.get_eq]
  · rw [envCount_eq, hend.count_eq]

/-- A variable is set and taken out again while another one stays. -/
theorem env_isMap_unset :
    let ops : List EnvOp := [.set [0x41] [0x31], .set [0x42] [0x32], .unset [0x41]]
    let env := ops.foldl EnvOp.run Env.empty
    let m := ops.foldl EnvOp.onMap (BoundedMap.empty envMaxVars (List UInt8) (List UInt8))
    (∀ name, envGet env name = m.lookup name) ∧ envCount env = m.keys.card := by
  refine env_isMap _ fun op hop => ?_
  simp only [List.mem_cons, List.not_mem_nil, or_false] at hop
  obtain rfl | rfl | rfl := hop
  · exact (by decide : [(0x41 : UInt8)].length ≤ envKeyLen - 1)
  · exact (by decide : [(0x42 : UInt8)].length ≤ envKeyLen - 1)
  · trivial

end Microkernel
