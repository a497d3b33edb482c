import BlockLang.Proofs.Starts
import BlockLang.Scope

namespace BlockLang

/-- The kinds of what is on the stack, the top first. -/
abbrev Shape := List Kind

/-- A shape for every address. -/
abbrev Shapes := Nat → Shape

/-- How an instruction that does not fail changes the shape of the stack. -/
inductive Instruction.Effect : Instruction Nat → Shape → Shape → Prop
  | pop {k ks} : Effect (.plain .pop) (k :: ks) ks
  | dup {k ks} : Effect (.plain .dup) (k :: ks) (k :: k :: ks)
  | intArith {op ks} : Effect (.plain (.intArith op)) (.int :: .int :: ks) (.int :: ks)
  | doubleArith {op ks} :
      Effect (.plain (.doubleArith op)) (.double :: .double :: ks) (.double :: ks)
  | intNegate {ks} : Effect (.plain .intNegate) (.int :: ks) (.int :: ks)
  | doubleNegate {ks} : Effect (.plain .doubleNegate) (.double :: ks) (.double :: ks)
  | bit {op ks} : Effect (.plain (.bit op)) (.int :: .int :: ks) (.int :: ks)
  | intToDouble {ks} : Effect (.plain .intToDouble) (.int :: ks) (.double :: ks)
  | doubleToInt {ks} : Effect (.plain .doubleToInt) (.double :: ks) (.int :: ks)
  | compare {high ks} : Effect (.plain (.compare high)) (.double :: .double :: ks) (.int :: ks)
  | concat {k l ks} : Effect (.plain .concat) (k :: l :: ks) (.string :: ks)
  | print {k ks} : Effect (.plain .print) (k :: ks) ks
  | ret : Effect (.plain .ret) [] []
  | goto {target ks} : Effect (.jump .goto target) ks ks
  | zero {relation target ks} : Effect (.jump (.zero relation) target) (.int :: ks) ks
  | ints {relation target ks} : Effect (.jump (.ints relation) target) (.int :: .int :: ks) ks
  | load {k slot ks} (room : slot.toNat < slotLimit) :
      Effect (.access (.load k) slot) ks (k :: ks)
  | store {k slot ks} (room : slot.toNat < slotLimit) :
      Effect (.access (.store k) slot) (k :: ks) ks
  | pushInt {value ks} : Effect (.pushInt value) ks (.int :: ks)
  | pushDouble {value ks} : Effect (.pushDouble value) ks (.double :: ks)
  | pushString {index ks} : Effect (.pushString index) ks (.string :: ks)

/-- Where the machine may be after an instruction, `next` being the address behind it. -/
def Instruction.Leads (next : Nat) : Instruction Nat → Nat → Prop
  | .plain .ret, _ => False
  | .jump .goto target, z => z = target
  | .jump _ target, z => z = target ∨ z = next
  | _, z => z = next

/-- From code that ends in a return, no instruction leads out. -/
theorem Linked.leads_mem {a : Assembly} {b : Bytecode} (hb : Linked a b) {w x y z : Nat}
    {i : Instruction Nat} (hret : b.At w (.plain .ret) b.code.size) (hx : b.At x i y)
    (hl : i.Leads y z) : z ∈ (Sweep.ofCode b.code).addresses := by
  have next : z = y → z ∈ (Sweep.ofCode b.code).addresses := by
    intro hz
    subst hz
    rcases hb.at_next hx with hmem | hend
    · exact hmem
    -- What ends where the code does is the return, which leads nowhere.
    · subst hend
      have hi : i = .plain .ret := by
        rcases Nat.le_total w x with hle | hle
        · exact (hb.apart hret hx hle hx.lt_size).2.1
        · exact (hb.apart hx hret hle hret.lt_size).2.1.symm
      subst hi
      exact hl.elim
  cases i with
  | plain op => cases op <;> first | exact hl.elim | exact next hl
  | jump branch target =>
    have there : z = target → z ∈ (Sweep.ofCode b.code).addresses := by
      intro hz
      rw [hz]
      exact hb.lands hx
    cases branch with
    | goto => exact there hl
    | zero relation | ints relation => exact hl.elim there next
  | _ => exact next hl

/-- The shapes allow for the instruction at `x`: it works on the stack that it finds, and wherever
it leads, the stack it leaves is expected. -/
def Shapes.Allow (M : Shapes) (x : Nat) (i : Instruction Nat) (next : Nat) : Prop :=
  ∃ post, i.Effect (M x) post ∧ ∀ z, i.Leads next z → M z = post

/-- The code from `x` to `y` takes a stack of shape `pre` to one of shape `post`. Shapes for its
addresses can be chosen at once; they fit the instructions if the code around it expects what `E`
says, and then they are as `G` says. -/
structure Flows (b : Bytecode) (x y : Nat) (pre post : Shape) (E G : Shapes → Prop) : Prop where
  le : x ≤ y
  shapes : ∃ M₀ : Shapes, ∀ M : Shapes, (∀ z, x ≤ z → z < y → M z = M₀ z) → M y = post →
    M x = pre ∧ (E M → G M ∧ ∀ z i next, x ≤ z → z < y → b.At z i next → M.Allow z i next)

namespace Flows

variable {b : Bytecode} {x u y : Nat} {pre mid post : Shape} {E E' E₁ E₂ G G' G₁ G₂ : Shapes → Prop}

/-- There is nothing to expect of no code. -/
theorem nil : Flows b x x pre pre E fun _ => True := by
  refine ⟨Nat.le_refl x, fun _ => pre, ?_⟩
  intro M _ hpost
  refine ⟨hpost, fun _ => ⟨trivial, ?_⟩⟩
  intro z i next hle hlt
  omega

/-- What is expected may be more, and what is found may be less. -/
theorem mono (h : Flows b x y pre post E G)
    (hE : ∀ M : Shapes, M x = pre → M y = post → E' M → E M)
    (hG : ∀ M : Shapes, M x = pre → M y = post → E' M → G M → G' M) :
    Flows b x y pre post E' G' := by
  obtain ⟨hle, M₀, hM₀⟩ := h
  refine ⟨hle, M₀, ?_⟩
  intro M hagree hpost
  obtain ⟨hpre, hrest⟩ := hM₀ M hagree hpost
  refine ⟨hpre, fun he => ?_⟩
  obtain ⟨hg, hallow⟩ := hrest (hE M hpre hpost he)
  exact ⟨hG M hpre hpost he hg, hallow⟩

/-- Two parts that meet. Each may expect what is known of the whole and of the place between. -/
theorem seq (first : Flows b x u pre mid E₁ G₁) (rest : Flows b u y mid post E₂ G₂)
    (hE : ∀ M : Shapes, M x = pre → M u = mid → M y = post → E M → E₁ M ∧ E₂ M) :
    Flows b x y pre post E fun M => G₁ M ∧ G₂ M := by
  obtain ⟨hxu, M₁, h₁⟩ := first
  obtain ⟨huy, M₂, h₂⟩ := rest
  refine ⟨Nat.le_trans hxu huy, fun z => if z < u then M₁ z else M₂ z, ?_⟩
  intro M hagree hpost
  have agree₁ : ∀ z, x ≤ z → z < u → M z = M₁ z := by
    intro z hle hlt
    exact (hagree z hle (Nat.lt_of_lt_of_le hlt huy)).trans (if_pos hlt)
  have agree₂ : ∀ z, u ≤ z → z < y → M z = M₂ z := by
    intro z hle hlt
    exact (hagree z (Nat.le_trans hxu hle) hlt).trans (if_neg (Nat.not_lt.mpr hle))
  obtain ⟨hmid, hrest₂⟩ := h₂ M agree₂ hpost
  obtain ⟨hpre, hrest₁⟩ := h₁ M agree₁ hmid
  refine ⟨hpre, fun he => ?_⟩
  obtain ⟨he₁, he₂⟩ := hE M hpre hmid hpost he
  obtain ⟨hg₁, hallow₁⟩ := hrest₁ he₁
  obtain ⟨hg₂, hallow₂⟩ := hrest₂ he₂
  refine ⟨⟨hg₁, hg₂⟩, ?_⟩
  intro z i next hle hlt hat
  by_cases hz : z < u
  · exact hallow₁ z i next hle hz hat
  · exact hallow₂ z i next (Nat.not_lt.mp hz) hlt hat

/-- Code that expects nothing of the code around it has shapes. -/
theorem exists_shapes (h : Flows b x y pre post (fun _ => True) G) :
    ∃ M : Shapes, M x = pre ∧ G M ∧
      ∀ z i next, x ≤ z → z < y → b.At z i next → M.Allow z i next := by
  obtain ⟨_, M₀, hM₀⟩ := h
  have agree : ∀ z, x ≤ z → z < y → (if z < y then M₀ z else post) = M₀ z :=
    fun z _ hlt => if_pos hlt
  obtain ⟨hpre, hrest⟩ := hM₀ (fun z => if z < y then M₀ z else post) agree
    (if_neg (Nat.lt_irrefl y))
  obtain ⟨hg, hallow⟩ := hrest trivial
  exact ⟨_, hpre, hg, hallow⟩

/-- Two parts of which nothing is to be told. -/
theorem trans (first : Flows b x u pre mid E₁ fun _ => True)
    (rest : Flows b u y mid post E₂ fun _ => True)
    (hE : ∀ M : Shapes, M x = pre → M u = mid → M y = post → E M → E₁ M ∧ E₂ M) :
    Flows b x y pre post E fun _ => True :=
  (first.seq rest hE).mono (fun _ _ _ h => h) fun _ _ _ _ _ => trivial

/-- Two parts that expect nothing of the code around them. -/
theorem append (first : Flows b x u pre mid (fun _ => True) fun _ => True)
    (rest : Flows b u y mid post (fun _ => True) fun _ => True) :
    Flows b x y pre post (fun _ => True) fun _ => True :=
  first.trans rest fun _ _ _ _ _ => ⟨trivial, trivial⟩

end Flows

/-- A single instruction, whose effect is known where it does not only lead elsewhere. -/
theorem Linked.flows {a : Assembly} {b : Bytecode} (hb : Linked a b) {x y : Nat}
    {i : Instruction Nat} {pre post effect : Shape} (hat : b.At x i y) (he : i.Effect pre effect)
    {E : Shapes → Prop}
    (hE : ∀ M : Shapes, M x = pre → M y = post → E M → ∀ z, i.Leads y z → M z = effect) :
    Flows b x y pre post E fun _ => True := by
  have hlt := hat.lt_next
  refine ⟨Nat.le_of_lt hlt, fun _ => pre, ?_⟩
  intro M hagree hpost
  have hpre := hagree x (Nat.le_refl x) hlt
  refine ⟨hpre, fun h => ⟨trivial, ?_⟩⟩
  intro z i' next hle hz hat'
  obtain ⟨rfl, rfl, rfl⟩ := hb.apart hat hat' hle hz
  exact ⟨effect, by rwa [hpre], hE M hpre hpost h⟩

namespace Flows

variable {a : Assembly} {b : Bytecode} {x y target : Nat} {pre post : Shape}

/-- An instruction that leads on. -/
theorem on (hb : Linked a b) {i : Instruction Nat} (hat : b.At x i y) (he : i.Effect pre post)
    (hl : ∀ z, i.Leads y z → z = y) : Flows b x y pre post (fun _ => True) fun _ => True :=
  hb.flows hat he fun M _ hpost _ z hz => by rw [hl z hz, hpost]

/-- A jump that is always taken, whatever is expected behind it. -/
theorem goto (hb : Linked a b) (hat : b.At x (.jump .goto target) y) (post : Shape) :
    Flows b x y pre post (fun M => M target = pre) fun _ => True := by
  refine hb.flows hat .goto ?_
  intro M _ _ he z hz
  rw [hz, he]

/-- A jump that may be taken. -/
theorem branch (hb : Linked a b) {branch : Branch} (hat : b.At x (.jump branch target) y)
    (he : (Instruction.jump branch target).Effect pre post) (hl : branch ≠ .goto) :
    Flows b x y pre post (fun M => M target = post) fun _ => True := by
  refine hb.flows hat he ?_
  intro M _ hpost htarget z hz
  cases branch with
  | goto => exact absurd rfl hl
  | zero relation | ints relation =>
    rcases hz with rfl | rfl
    · exact htarget
    · exact hpost

/-- The return, behind which nothing is expected. -/
theorem ret (hb : Linked a b) (hat : b.At x (.plain .ret) y) (post : Shape) :
    Flows b x y [] post (fun _ => True) fun _ => True :=
  hb.flows hat .ret fun _ _ _ _ _ hz => hz.elim

end Flows

end BlockLang
