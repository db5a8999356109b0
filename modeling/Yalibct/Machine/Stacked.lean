import Yalibct.Machine.Heap

/-! # Objects stacked in a chain of blocks

The blocks come with the latest first, and so do the objects. Each object lies in a block, at or
above the floor of that block and below the object after it; an older object lies in the same
block or in an older one. Objects without bytes take part, wherever they stand.
-/

namespace Yalibct.Machine

/-- An address and the bytes that belong there. -/
structure Object where
  addr : ℕ
  bytes : List UInt8
deriving DecidableEq

namespace Object

def limit (o : Object) : ℕ := o.addr + o.bytes.length

/-- The memory holds the object. -/
def Held (mem : Memory) (o : Object) : Prop := mem.read o.addr o.bytes.length = o.bytes

/-- No common byte. -/
def Apart (o p : Object) : Prop := o.limit ≤ p.addr ∨ p.limit ≤ o.addr

/-- Within a block and not below its floor. -/
def Within (floor : Block → ℕ) (b : Block) (o : Object) : Prop := floor b ≤ o.addr ∧ o.limit ≤ b.limit

end Object

/-- Where the latest block ends. -/
def topOf : List Block → ℕ
  | [] => 0
  | b :: _ => b.limit

/-- The objects below an address of the latest block, and those of the older blocks. -/
inductive Stacked (floor : Block → ℕ) : List Block → ℕ → List Object → Prop
  | empty (top : ℕ) : Stacked floor [] top []
  | object {b : Block} {bs : List Block} {top : ℕ} {o : Object} {objects : List Object}
      (base : floor b ≤ o.addr) (bound : o.limit ≤ top)
      (below : Stacked floor (b :: bs) o.addr objects) : Stacked floor (b :: bs) top (o :: objects)
  | block {b : Block} {bs : List Block} {top : ℕ} {objects : List Object}
      (below : Stacked floor bs (topOf bs) objects) : Stacked floor (b :: bs) top objects

namespace Stacked

variable {floor : Block → ℕ} {b : Block} {bs : List Block} {top higher : ℕ} {o : Object}
variable {objects newer older : List Object}

/-- Without objects, any blocks will do. -/
theorem nil (bs : List Block) (top : ℕ) : Stacked floor bs top [] := by
  induction bs generalizing top with
  | nil => exact .empty top
  | cons b bs ih => exact .block (ih _)

theorem mono (stacked : Stacked floor bs top objects) (bound : top ≤ higher) :
    Stacked floor bs higher objects := by
  cases stacked with
  | empty => exact .empty higher
  | object base below_top below => exact .object base (Nat.le_trans below_top bound) below
  | block below => exact .block below

/-- An object lies below the top in the latest block, or in an older block. -/
theorem placed (stacked : Stacked floor (b :: bs) top objects) (member : o ∈ objects) :
    (floor b ≤ o.addr ∧ o.limit ≤ top) ∨ ∃ c ∈ bs, o.Within floor c := by
  generalize blocks : b :: bs = all at stacked
  induction stacked generalizing b bs with
  | empty => cases blocks
  | @object c cs top p objects base bound below ih =>
    cases blocks
    cases List.mem_cons.mp member with
    | inl latest =>
      subst latest
      exact .inl ⟨base, bound⟩
    | inr old =>
      cases ih old rfl with
      | inl here =>
        refine .inl ⟨here.1, ?_⟩
        simp only [Object.limit] at here bound ⊢
        omega
      | inr there => exact .inr there
  | @block c cs top objects below ih =>
    cases blocks
    cases cs with
    | nil =>
      cases below
      cases member
    | cons d ds =>
      cases ih member rfl with
      | inl here => exact .inr ⟨d, List.mem_cons_self .., here⟩
      | inr there =>
        obtain ⟨c, listed, within⟩ := there
        exact .inr ⟨c, List.mem_cons_of_mem _ listed, within⟩

/-- Every object lies within one of the blocks. -/
theorem within (stacked : Stacked floor bs top objects) (bound : top ≤ topOf bs)
    (member : o ∈ objects) : ∃ b ∈ bs, o.Within floor b := by
  cases bs with
  | nil =>
    cases stacked
    cases member
  | cons b bs =>
    rcases stacked.placed member with ⟨base, upper⟩ | ⟨c, listed, within⟩
    · exact ⟨b, List.mem_cons_self .., base, Nat.le_trans upper bound⟩
    · exact ⟨c, List.mem_cons_of_mem _ listed, within⟩

/-- Objects in blocks that are apart are apart. -/
theorem apart (stacked : Stacked floor bs top objects) (blocks : bs.Pairwise Block.Apart)
    (floors : ∀ b ∈ bs, b.addr ≤ floor b) (bound : top ≤ topOf bs) :
    objects.Pairwise Object.Apart := by
  induction stacked with
  | empty => exact .nil
  | @object b bs top o objects base below_top below ih =>
    have lower : o.addr ≤ b.limit := by
      simp only [topOf, Object.limit] at bound below_top
      omega
    refine List.pairwise_cons.mpr ⟨?_, ih blocks floors lower⟩
    intro p member
    rcases below.placed member with ⟨-, upper⟩ | ⟨c, listed, inside⟩
    · exact .inr upper
    · have across := List.rel_of_pairwise_cons blocks listed
      have here := floors b (List.mem_cons_self ..)
      have there := floors c (List.mem_cons_of_mem _ listed)
      simp only [Object.Apart, Object.Within, Object.limit, Block.Apart, topOf] at *
      omega
  | @block b bs top objects below ih =>
    exact ih (List.pairwise_cons.mp blocks).2 (fun c member => floors c (List.mem_cons_of_mem _ member))
      (Nat.le_refl _)

/-- Below an object, the older ones are stacked in its block and the older blocks. -/
theorem older_stacked (stacked : Stacked floor bs top (newer ++ o :: older)) (bound : top ≤ topOf bs) :
    ∃ latest c rest, bs = latest ++ c :: rest ∧ o.Within floor c ∧
      Stacked floor (c :: rest) o.addr older := by
  generalize all : newer ++ o :: older = objects at stacked
  induction stacked generalizing newer with
  | empty => simp at all
  | @object b bs top p objects base below_top below ih =>
    cases newer with
    | nil =>
      cases all
      exact ⟨[], b, bs, rfl, ⟨base, Nat.le_trans below_top bound⟩, below⟩
    | cons q newer =>
      cases all
      refine ih ?_ rfl
      simp only [topOf, Object.limit] at bound below_top ⊢
      omega
  | @block b bs top objects below ih =>
    obtain ⟨latest, c, rest, split, within, lower⟩ := ih (Nat.le_refl _) all
    exact ⟨b :: latest, c, rest, by rw [split]; rfl, within, lower⟩

/-- When the latest block has no object in it, the others hold all. -/
theorem older_of_bare (stacked : Stacked floor (b :: bs) top objects) (bare : top = floor b)
    (nonempty : ∀ o ∈ objects, o.bytes = [] → o.addr ≠ floor b) :
    Stacked floor bs (topOf bs) objects := by
  cases stacked with
  | object base bound below =>
    rename_i o objects
    have short : o.bytes.length = 0 ∧ o.addr = floor b := by
      simp only [Object.limit] at bound
      omega
    exact absurd short.2 (nonempty o (List.mem_cons_self ..) (List.eq_nil_of_length_eq_zero short.1))
  | block below => exact below

end Stacked

end Yalibct.Machine
