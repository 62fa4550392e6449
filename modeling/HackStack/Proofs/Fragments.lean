import HackStack.Proofs.Execution
import HackStack.Proofs.Reading
import HackStack.Proofs.StackMachine

set_option autoImplicit false

namespace HackStack

open Assembly Statement Lowering

namespace Assembly.SymbolTable

variable (table : SymbolTable)

theorem address?_stackPointer : table.address? stackPointer = some 0 :=
  address?_of_predefined (by decide) table

theorem address?_scratch : table.address? scratch = some 13 :=
  address?_of_predefined (by decide) table

theorem address?_returnScratch : table.address? returnScratch = some 14 :=
  address?_of_predefined (by decide) table

theorem address?_base (base : Base) : table.address? base.symbol = some base.cell := by
  cases base <;> exact address?_of_predefined (by decide) table

end Assembly.SymbolTable

open SymbolTable Access

namespace Memory

theorem load?_of_lt {mem : Memory} {address : Word} (h : address.toNat < ramSize) :
    mem.load? address = some (mem.read address) := if_pos h

theorem store?_of_lt {mem : Memory} {address : Word} (value : Word) (h : address.toNat < ramSize) :
    mem.store? address value = some (mem.write address value) := if_pos h

theorem read_write_self {mem : Memory} {a : Word} (h : a.toNat < ramSize) {value : Word} :
    (mem.write a value).read a = value := by
  rw [read_write, if_pos ⟨rfl, h⟩]

theorem read_write_ne {mem : Memory} {a b : Word} (h : a ≠ b) {value : Word} :
    (mem.write a value).read b = mem.read b := by
  rw [read_write, if_neg (fun hab => h hab.1)]

theorem pop?_snd {mem : Memory} {r : Word × Memory} (h : shared.pop? mem = some r) :
    r.2 = mem.write 0 (mem.read 0 - 1) := by
  obtain ⟨v, -, rfl⟩ := Option.map_eq_some_iff.1 h
  rfl

variable (mem : Memory)

@[simp]
theorem load?_zero : mem.load? 0 = some (mem.read 0) := load?_of_lt (by decide)

@[simp]
theorem load?_base (base : Base) : mem.load? base.cell = some (mem.read base.cell) :=
  load?_of_lt (by cases base <;> decide)

@[simp]
theorem load?_scratch : mem.load? 13 = some (mem.read 13) := load?_of_lt (by decide)

@[simp]
theorem load?_returnScratch : mem.load? 14 = some (mem.read 14) := load?_of_lt (by decide)

@[simp]
theorem store?_zero (value : Word) : mem.store? 0 value = some (mem.write 0 value) :=
  store?_of_lt value (by decide)

@[simp]
theorem store?_scratch (value : Word) : mem.store? 13 value = some (mem.write 13 value) :=
  store?_of_lt value (by decide)

@[simp]
theorem store?_returnScratch (value : Word) : mem.store? 14 value = some (mem.write 14 value) :=
  store?_of_lt value (by decide)

@[simp]
theorem read_write_base (base : Base) (value : Word) :
    (mem.write base.cell value).read base.cell = value :=
  read_write_self (by cases base <;> decide)

@[simp]
theorem store?_base (base : Base) (value : Word) :
    mem.store? base.cell value = some (mem.write base.cell value) :=
  store?_of_lt value (by cases base <;> decide)

end Memory

section Instructions

variable (table : SymbolTable) (code : List Statement) (s : Core)

theorem exec_value (v : Word) :
    exec table (.value v :: code) s = exec table code { s with a := v &&& 0x7FFF } := rfl

variable {table} in
theorem exec_symbol {name : String} {a : Word} (h : table.address? name = some a) :
    exec table (.symbol name :: code) s = exec table code { s with a := a &&& 0x7FFF } := by
  simp only [exec, Statement.effect?, h, Option.map_some, Option.bind_some]

theorem exec_stackPointer :
    exec table (.symbol stackPointer :: code) s = exec table code { s with a := 0 } :=
  exec_symbol code s (address?_stackPointer table)

theorem exec_scratch :
    exec table (.symbol scratch :: code) s = exec table code { s with a := 13 } :=
  exec_symbol code s (address?_scratch table)

theorem exec_returnScratch :
    exec table (.symbol returnScratch :: code) s = exec table code { s with a := 14 } :=
  exec_symbol code s (address?_returnScratch table)

theorem exec_base (base : Base) :
    exec table (.symbol base.symbol :: code) s = exec table code { s with a := base.cell } := by
  rw [exec_symbol code s (address?_base table base)]
  cases base <;> rfl

variable {comp : Comp}

theorem exec_setA (hr : comp.readsMemory = false) :
    exec table (assign .toA comp :: code) s = exec table code { s with a := comp.eval s.d s.a } := by
  simp [exec, assign, Statement.effect?, Compute.effect?, Compute.usesMemory, Compute.result, hr,
    Dest.toA]

theorem exec_setD (hr : comp.readsMemory = false) :
    exec table (assign .toD comp :: code) s = exec table code { s with d := comp.eval s.d s.a } := by
  simp [exec, assign, Statement.effect?, Compute.effect?, Compute.usesMemory, Compute.result, hr,
    Dest.toD]

theorem exec_store (hr : comp.readsMemory = false) :
    exec table (assign .toM comp :: code) s =
      (s.ram.store? s.a (comp.eval s.d s.a)).bind fun ram => exec table code { s with ram := ram } := by
  by_cases h : s.a.toNat < ramSize
  · simp [exec, assign, Statement.effect?, Compute.effect?, Compute.usesMemory, Compute.result, hr,
      Dest.toM, Memory.store?, h, Nat.not_le_of_lt h]
  · simp [exec, assign, Statement.effect?, Compute.effect?, Compute.usesMemory, hr, Dest.toM,
      Memory.store?, h, Nat.le_of_not_lt h]

theorem exec_load (dest : Dest) (hr : comp.readsMemory = true) :
    exec table (assign dest comp :: code) s =
      (s.ram.load? s.a).bind fun y =>
        exec table code ⟨if dest.m then s.ram.write s.a (comp.eval s.d y) else s.ram,
          if dest.a then comp.eval s.d y else s.a, if dest.d then comp.eval s.d y else s.d⟩ := by
  by_cases h : s.a.toNat < ramSize
  · simp [exec, assign, Statement.effect?, Compute.effect?, Compute.usesMemory, Compute.result, hr,
      Memory.load?, h, Nat.not_le_of_lt h]
  · simp [exec, assign, Statement.effect?, Compute.effect?, Compute.usesMemory, hr, Memory.load?, h,
      Nat.le_of_not_lt h]

theorem exec_loadA (hr : comp.readsMemory = true) :
    exec table (assign .toA comp :: code) s =
      (s.ram.load? s.a).bind fun y => exec table code { s with a := comp.eval s.d y } :=
  exec_load table code s .toA hr

theorem exec_loadD (hr : comp.readsMemory = true) :
    exec table (assign .toD comp :: code) s =
      (s.ram.load? s.a).bind fun y => exec table code { s with d := comp.eval s.d y } :=
  exec_load table code s .toD hr

theorem exec_modify (hr : comp.readsMemory = true) :
    exec table (assign .toM comp :: code) s =
      (s.ram.load? s.a).bind fun y =>
        exec table code { s with ram := s.ram.write s.a (comp.eval s.d y) } :=
  exec_load table code s .toM hr

theorem exec_modifyA (hr : comp.readsMemory = true) :
    exec table (assign .toAM comp :: code) s =
      (s.ram.load? s.a).bind fun y =>
        exec table code { s with ram := s.ram.write s.a (comp.eval s.d y), a := comp.eval s.d y } :=
  exec_load table code s .toAM hr

end Instructions

section Blocks

variable (table : SymbolTable) (code : List Statement) (s : Core)

theorem exec_pushD :
    exec table (pushD ++ code) s =
      (shared.push? s.ram s.d).bind fun ram => exec table code ⟨ram, 0, s.d⟩ := by
  change exec table (.symbol stackPointer :: assign .toA (.y .m) :: assign .toM .d ::
    .symbol stackPointer :: assign .toM (.yPlusOne .m) :: code) s = _
  rw [exec_stackPointer, exec_loadA _ _ _ rfl, Memory.load?_zero, Option.bind_some,
    exec_store _ _ _ rfl, Access.push?, Option.bind_map]
  rfl

theorem exec_popD :
    exec table (popD ++ code) s =
      (shared.pop? s.ram).bind fun r => exec table code ⟨r.2, s.ram.read 0 - 1, r.1⟩ := by
  change exec table (.symbol stackPointer :: assign .toAM (.yMinusOne .m) :: assign .toD (.y .m) ::
    code) s = _
  rw [exec_stackPointer, exec_modifyA _ _ _ rfl, Memory.load?_zero, Option.bind_some,
    exec_loadD _ _ _ rfl, Access.pop?, Option.bind_map]
  rfl

theorem exec_addressA (base : Base) {index : Word} (hi : index.toNat ≤ Word.maxLiteral) :
    exec table (segmentAddress base index .toA ++ code) s =
      exec table code ⟨s.ram, s.ram.read base.cell + index, s.ram.read base.cell⟩ := by
  change exec table (.symbol base.symbol :: assign .toD (.y .m) :: .value index ::
    assign .toA (.dPlusY .a) :: code) s = _
  rw [exec_base, exec_loadD _ _ _ rfl, Memory.load?_base, Option.bind_some, exec_value,
    Word.literal_and hi, exec_setA _ _ _ rfl]
  rfl

theorem exec_addressD (base : Base) {index : Word} (hi : index.toNat ≤ Word.maxLiteral) :
    exec table (segmentAddress base index .toD ++ code) s =
      exec table code ⟨s.ram, index, s.ram.read base.cell + index⟩ := by
  change exec table (.symbol base.symbol :: assign .toD (.y .m) :: .value index ::
    assign .toD (.dPlusY .a) :: code) s = _
  rw [exec_base, exec_loadD _ _ _ rfl, Memory.load?_base, Option.bind_some, exec_value,
    Word.literal_and hi, exec_setD _ _ _ rfl]
  rfl

theorem exec_saveRegister (base : Base) :
    exec table (saveRegister base ++ code) s =
      (shared.push? s.ram (s.ram.read base.cell)).bind fun ram =>
        exec table code ⟨ram, 0, s.ram.read base.cell⟩ := by
  change exec table (.symbol base.symbol :: assign .toD (.y .m) :: (pushD ++ code)) s = _
  rw [exec_base, exec_loadD _ _ _ rfl, Memory.load?_base, Option.bind_some, exec_pushD]
  rfl

theorem exec_restoreRegister (frame : Word) (base : Base) {offset : Word}
    (ho : offset.toNat ≤ Word.maxLiteral) :
    exec table (restoreRegister base offset ++ code) s =
      (shared.restore? frame s.ram (base, offset)).bind fun ram =>
        exec table code ⟨ram, base.cell, ram.read base.cell⟩ := by
  change exec table (.symbol scratch :: assign .toD (.y .m) :: .value offset ::
    assign .toA (.dMinusY .a) :: assign .toD (.y .m) :: .symbol base.symbol :: assign .toM .d ::
    code) s = _
  rw [exec_scratch, exec_loadD _ _ _ rfl, Memory.load?_scratch, Option.bind_some, exec_value,
    Word.literal_and ho, exec_setA _ _ _ rfl, exec_loadD _ _ _ rfl, Access.restore?,
    Option.bind_map]
  congr 1
  funext v
  rw [exec_base, exec_store _ _ _ rfl, Memory.store?_base]
  simp [Memory.read_write_base]
  rfl

theorem exec_enterFrame {args : Word} (ha : args.toNat ≤ Word.maxLiteral) :
    exec table (enterFrame args ++ code) s =
      let ram := s.ram.write Base.arg.cell (s.ram.read 0 - 5 - args)
      exec table code ⟨ram.write Base.lcl.cell (ram.read 0), Base.lcl.cell, ram.read 0⟩ := by
  change exec table (.symbol stackPointer :: assign .toD (.y .m) :: .value frameWords ::
    assign .toD (.dMinusY .a) :: .value args :: assign .toD (.dMinusY .a) ::
    .symbol Base.arg.symbol :: assign .toM .d :: .symbol stackPointer :: assign .toD (.y .m) ::
    .symbol Base.lcl.symbol :: assign .toM .d :: code) s = _
  rw [exec_stackPointer, exec_loadD _ _ _ rfl, Memory.load?_zero, Option.bind_some, exec_value,
    exec_setD _ _ _ rfl, exec_value, Word.literal_and ha, exec_setD _ _ _ rfl,
    exec_base, exec_store _ _ _ rfl, Memory.store?_base, Option.bind_some, exec_stackPointer,
    exec_loadD _ _ _ rfl, Memory.load?_zero, Option.bind_some, exec_base, exec_store _ _ _ rfl,
    Memory.store?_base, Option.bind_some]
  rfl

theorem exec_leaveFrame :
    exec table (leaveFrame ++ code) s =
      let frame := s.ram.read Base.lcl.cell
      ((s.ram.write 13 frame).load? (frame - 5)).bind fun address =>
        exec table code ⟨(s.ram.write 13 frame).write 14 address, 14, address⟩ := by
  change exec table (.symbol Base.lcl.symbol :: assign .toD (.y .m) :: .symbol scratch ::
    assign .toM .d :: .value frameWords :: assign .toA (.dMinusY .a) :: assign .toD (.y .m) ::
    .symbol returnScratch :: assign .toM .d :: code) s = _
  rw [exec_base, exec_loadD _ _ _ rfl, Memory.load?_base, Option.bind_some, exec_scratch,
    exec_store _ _ _ rfl, Memory.store?_scratch, Option.bind_some, exec_value, exec_setA _ _ _ rfl,
    exec_loadD _ _ _ rfl]
  refine congrArg (Option.bind _) (funext fun address => ?_)
  rw [exec_returnScratch, exec_store _ _ _ rfl, Memory.store?_returnScratch, Option.bind_some]
  rfl

theorem exec_storeResult :
    exec table (storeResult ++ code) s =
      (shared.pop? s.ram).bind fun r =>
        (r.2.store? (r.2.read Base.arg.cell) r.1).bind fun ram =>
          exec table code ⟨ram.write 0 (ram.read Base.arg.cell + 1), 0, ram.read Base.arg.cell + 1⟩ := by
  change exec table (popD ++ (.symbol Base.arg.symbol :: assign .toA (.y .m) :: assign .toM .d ::
    .symbol Base.arg.symbol :: assign .toD (.yPlusOne .m) :: .symbol stackPointer ::
    assign .toM .d :: code)) s = _
  rw [exec_popD]
  refine congrArg (Option.bind _) (funext fun r => ?_)
  rw [exec_base, exec_loadA _ _ _ rfl, Memory.load?_base, Option.bind_some, exec_store _ _ _ rfl]
  refine congrArg (Option.bind _) (funext fun ram => ?_)
  rw [exec_base, exec_loadD _ _ _ rfl, Memory.load?_base, Option.bind_some, exec_stackPointer,
    exec_store _ _ _ rfl, Memory.store?_zero, Option.bind_some]
  rfl

end Blocks

section Commands

variable (table : SymbolTable) (s : Core)

def staticCell? (unit : String) (index : Word) : Option Word :=
  (table.address? (staticSymbol unit index)).map (· &&& 0x7FFF)

theorem exec_static (unit : String) (index : Word) (code : List Statement) :
    exec table (.symbol (staticSymbol unit index) :: code) s =
      (staticCell? table unit index).bind fun cell => exec table code { s with a := cell } := by
  cases h : table.address? (staticSymbol unit index) with
  | none => simp [exec, Statement.effect?, staticCell?, h]
  | some a => simp [exec, Statement.effect?, staticCell?, h]

theorem exec_push (unit : String) {segment : Segment} {index : Word} (hi : segment.Admits index) :
    (exec table (push unit segment index) s).map Core.ram =
      shared.pushFrom? s.ram (staticCell? table unit) segment index := by
  have hpush (s : Core) : (exec table pushD s).map Core.ram = shared.push? s.ram s.d := by
    have h := exec_pushD table [] s
    rw [List.append_nil] at h
    rw [h]
    simp [exec, Option.map_bind]
  have hload (s : Core) : (exec table (assign .toD (.y .m) :: pushD) s).map Core.ram =
      (s.ram.load? s.a).bind (shared.push? s.ram) := by
    rw [exec_loadD _ _ _ rfl, Option.map_bind]
    congr 1
    funext y
    exact hpush _
  unfold push Access.pushFrom?
  cases hseg : segment.addressing with
  | immediate =>
    change (exec table (.value index :: assign .toD (.y .a) :: pushD) s).map _ = _
    rw [exec_value, Word.literal_and hi.1, exec_setD _ _ _ rfl]
    exact hpush _
  | static =>
    change (exec table (.symbol (staticSymbol unit index) :: assign .toD (.y .m) :: pushD) s).map _ = _
    rw [exec_static, Option.map_bind]
    exact congrArg (Option.bind _) (funext fun cell => hload _)
  | indirect base =>
    change (exec table (segmentAddress base index .toA ++ (assign .toD (.y .m) :: pushD)) s).map _ = _
    rw [exec_addressA _ _ _ _ hi.1]
    exact hload _
  | direct base =>
    change (exec table (.value (base + index) :: assign .toD (.y .m) :: pushD) s).map _ = _
    rw [exec_value, Word.literal_and (hi.direct_le hseg)]
    exact hload _

theorem exec_pop (unit : String) {segment : Segment} {index : Word} (hi : segment.Admits index) :
    (exec table (pop unit segment index) s).map Core.ram =
      shared.popTo? s.ram (staticCell? table unit) segment index := by
  have hstore (s : Core) : (exec table [assign .toM .d] s).map Core.ram = s.ram.store? s.a s.d := by
    rw [exec_store _ _ _ rfl, Option.map_bind]
    exact Option.bind_fun_some _
  unfold pop Access.popTo?
  cases hseg : segment.addressing with
  | immediate =>
    change (exec table (.symbol stackPointer :: assign .toM (.yMinusOne .m) :: []) s).map _ = _
    rw [exec_stackPointer, exec_modify _ _ _ rfl, Memory.load?_zero]
    rfl
  | static =>
    change (exec table (popD ++ [.symbol (staticSymbol unit index), assign .toM .d]) s).map _ = _
    rw [exec_popD, Option.map_bind]
    have hcell (r : Word × Memory) :
        (exec table [.symbol (staticSymbol unit index), assign .toM .d]
          ⟨r.2, s.ram.read 0 - 1, r.1⟩).map Core.ram =
          (staticCell? table unit index).bind fun cell => r.2.store? cell r.1 := by
      rw [exec_static, Option.map_bind]
      exact congrArg (Option.bind _) (funext fun cell => hstore _)
    calc _ = (shared.pop? s.ram).bind fun r => (staticCell? table unit index).bind fun cell =>
          r.2.store? cell r.1 := congrArg (Option.bind _) (funext hcell)
      _ = _ := Option.bind_comm _ _
  | indirect base =>
    change (exec table (segmentAddress base index .toD ++ (.symbol scratch :: assign .toM .d ::
      (popD ++ [.symbol scratch, assign .toA (.y .m), assign .toM .d]))) s).map _ = _
    rw [exec_addressD _ _ _ _ hi.1, exec_scratch, exec_store _ _ _ rfl, Memory.store?_scratch,
      Option.bind_some, exec_popD, Option.map_bind]
    refine congrArg (Option.bind _) (funext fun r => ?_)
    rw [Function.comp_apply, exec_scratch, exec_loadA _ _ _ rfl, Memory.load?_scratch,
      Option.bind_some, hstore]
    rfl
  | direct base =>
    change (exec table (popD ++ [.value (base + index), assign .toM .d]) s).map _ = _
    rw [exec_popD, Option.map_bind]
    refine congrArg (Option.bind _) (funext fun r => ?_)
    rw [Function.comp_apply, exec_value, Word.literal_and (hi.direct_le hseg)]
    exact hstore _

/-- Operations that replace the top of the stack by a computation on it. -/
theorem exec_unary {op : Operation} (hop : op.isUnary) {comp : Comp} (hr : comp.readsMemory = true)
    (hcomp : ∀ d y, comp.eval d y = op.value 0 y) :
    (exec table (unary comp) s).map Core.ram = shared.operate? s.ram op := by
  rw [unary, exec_stackPointer, exec_loadA _ _ _ rfl, Memory.load?_zero, Option.bind_some,
    exec_modify _ _ _ hr, Access.operate?, if_pos hop, Option.map_bind]
  refine congrArg (Option.bind _) (funext fun y => ?_)
  simp only [Function.comp_apply, exec, hcomp]
  rfl

/-- Operations that pop the right operand and replace the left one by a computation. -/
theorem exec_binary {op : Operation} (hop : op.isUnary = false) {comp : Comp}
    (hr : comp.readsMemory = true) (hcomp : ∀ d y, comp.eval d y = op.value y d) :
    (exec table (binary comp) s).map Core.ram = shared.operate? s.ram op := by
  change (exec table (popD ++ [assign .toA (.yMinusOne .a), assign .toM comp]) s).map _ = _
  rw [exec_popD, Access.operate?, if_neg (by simp [hop]), Option.map_bind]
  refine Option.bind_congr fun r hr' => ?_
  have htop : r.2.read 0 = s.ram.read 0 - 1 := by
    rw [Memory.pop?_snd hr', Memory.read_write_self (by decide)]
  rw [Function.comp_apply, exec_setA _ _ _ rfl, exec_modify _ _ _ hr, Option.map_bind]
  simp only [exec, hcomp, htop]
  rfl

theorem exec_zeros (unit : String) (n : Nat) :
    (exec table (List.replicate n (push unit .constant 0)).flatten s).map Core.ram =
      shared.zeros? n s.ram := by
  induction n generalizing s with
  | zero => rfl
  | succ n ih =>
    change (exec table (.value 0 :: assign .toD (.y .a) ::
      (pushD ++ (List.replicate n (push unit .constant 0)).flatten)) s).map _ = _
    rw [exec_value, exec_setD _ _ _ rfl, exec_pushD, Option.map_bind]
    exact congrArg (Option.bind _) (funext fun ram => ih _)

/-- The part of a call before its jump. -/
def callFrame (args : Word) (returnTo : String) : List Statement :=
  [.symbol returnTo, assign .toD (.y .a)] ++ pushD ++ savedRegisters.flatMap saveRegister ++
    enterFrame args

theorem exec_callFrame {args : Word} (ha : args.toNat ≤ Word.maxLiteral) {returnTo : String} {a : Word}
    (hret : table.address? returnTo = some a) :
    (exec table (callFrame args returnTo) s).map Core.ram =
      shared.enter? s.ram (a &&& 0x7FFF) args := by
  change (exec table (.symbol returnTo :: assign .toD (.y .a) :: (pushD ++ (saveRegister .lcl ++
    (saveRegister .arg ++ (saveRegister .this ++ (saveRegister .that ++ (enterFrame args ++ []))))))) s).map _
      = _
  rw [exec_symbol _ _ hret, exec_setD _ _ _ rfl, exec_pushD]
  simp only [exec_saveRegister, exec_enterFrame _ _ _ ha, Option.map_bind, Function.comp_def, exec,
    Access.enter?, savedRegisters, List.foldlM_cons, List.foldlM_nil, Access.save?,
    Option.bind_eq_bind, Option.pure_def, Option.bind_assoc, Option.bind_some]
  rfl

def retFrame : List Statement :=
  leaveFrame ++ storeResult ++ restoreOrder.flatMap (fun r => restoreRegister r.1 r.2) ++
    [.symbol returnScratch, assign .toA (.y .m)]

theorem exec_restores (frame : Word) :
    (exec table (restoreRegister .that 1 ++ (restoreRegister .this 2 ++ (restoreRegister .arg 3 ++
      (restoreRegister .lcl 4 ++ [.symbol returnScratch, assign .toA (.y .m)])))) s).map
        (fun s => (s.a, s.ram)) =
      (restoreOrder.foldlM (shared.restore? frame) s.ram).bind fun mem => some (mem.read 14, mem) := by
  simp only [restoreOrder, List.foldlM_cons, List.foldlM_nil, Option.bind_eq_bind,
    Option.pure_def, Option.bind_assoc, Option.bind_some]
  rw [exec_restoreRegister _ _ _ frame _ (by decide), Option.map_bind]
  refine congrArg (Option.bind _) (funext fun that => ?_)
  rw [Function.comp_apply, exec_restoreRegister _ _ _ frame _ (by decide), Option.map_bind]
  refine congrArg (Option.bind _) (funext fun this => ?_)
  rw [Function.comp_apply, exec_restoreRegister _ _ _ frame _ (by decide), Option.map_bind]
  refine congrArg (Option.bind _) (funext fun arg => ?_)
  rw [Function.comp_apply, exec_restoreRegister _ _ _ frame _ (by decide), Option.map_bind]
  refine congrArg (Option.bind _) (funext fun lcl => ?_)
  rw [Function.comp_apply, exec_returnScratch, exec_loadA _ _ _ rfl, Memory.load?_returnScratch]
  rfl

theorem exec_retFrame :
    (exec table retFrame s).map (fun s => (s.a, s.ram)) = shared.leave? s.ram := by
  change (exec table (leaveFrame ++ (storeResult ++ (restoreRegister .that 1 ++
    (restoreRegister .this 2 ++ (restoreRegister .arg 3 ++ (restoreRegister .lcl 4 ++
      [.symbol returnScratch, assign .toA (.y .m)])))))) s).map _ = _
  rw [exec_leaveFrame, Option.map_bind]
  refine congrArg (Option.bind _) (funext fun address => ?_)
  rw [Function.comp_apply, exec_storeResult, Option.map_bind]
  refine congrArg (Option.bind _) (funext fun r => ?_)
  rw [Function.comp_apply, Option.map_bind]
  refine congrArg (Option.bind _) (funext fun ram => ?_)
  rw [Function.comp_apply, exec_restores _ _ (s.ram.read Base.lcl.cell)]
  rfl

end Commands

end HackStack
