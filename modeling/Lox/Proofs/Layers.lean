import Lox.Proofs.Shapes
import Lox.Proofs.Worlds

/-! # Code with braces more

Two programs of which the second has some statements in braces that the first has not.  At run time each such pair
of braces is a frame that the first run does not have (`Layer.extra`), so the distance of a use that reaches beyond
it is longer by one in the second run (`Layers.outward`).  `BracedStmt` says that two statements are the same but
for braces and that the distances of their uses of names fit the layers around them. -/

namespace Lox

/-! ### Layers -/

/-- A frame around a place, as two runs have it: shared by both, or an extra one of the second run. -/
inductive Layer where
  | shared
  | extra
  deriving DecidableEq, Repr

/-- The frames around a place, innermost first, as far as they are told apart; all that are further out are
shared. -/
abbrev Layers := List Layer

namespace Layers

/-- Where the second run has the frame that is at a distance in the first run. -/
def outward : Layers → Nat → Nat
  | [], d => d
  | .extra :: Γ, d => outward Γ d + 1
  | .shared :: _, 0 => 0
  | .shared :: Γ, d + 1 => outward Γ d + 1

/-- A place where names may be declared: the innermost frame is shared. -/
def Open (Γ : Layers) : Prop := Γ.head? ≠ some .extra

theorem open_nil : Open [] := nofun

theorem open_shared (Γ : Layers) : Open (.shared :: Γ) := nofun

/-- The innermost frame is where names may be declared. -/
theorem Open.outward_zero {Γ : Layers} (h : Γ.Open) : Γ.outward 0 = 0 := by
  match Γ, h with
  | [], _ => rfl
  | .shared :: _, _ => rfl
  | .extra :: _, h => exact absurd rfl h

theorem outward_shared (k : Nat) (Γ : Layers) (d : Nat) :
    outward (List.replicate k .shared ++ Γ) d = if d < k then d else outward Γ (d - k) + k := by
  induction k generalizing d with
  | zero => simp
  | succ k ih =>
      rw [List.replicate_succ, List.cons_append]
      cases d with
      | zero => simp [outward]
      | succ d =>
          rw [outward, ih, Nat.add_sub_add_right]
          by_cases hd : d < k
          · rw [if_pos hd, if_pos (Nat.succ_lt_succ hd)]
          · rw [if_neg hd, if_neg fun h => hd (Nat.lt_of_succ_lt_succ h), Nat.add_assoc]

/-- Where all frames are shared, they are at the same distances. -/
@[simp] theorem outward_replicate (k d : Nat) : outward (List.replicate k .shared) d = d := by
  have h := outward_shared k [] d
  rw [List.append_nil] at h
  rw [h, outward]
  split <;> omega

/-- The frame just inside the one at a distance is just inside it in the second run as well; where there is none, there
is none in the second run. -/
def Adjoins (Γ : Layers) : (distance : Nat) → Prop
  | 0 => Γ.outward 0 = 0
  | inner + 1 => Γ.outward (inner + 1) = Γ.outward inner + 1

theorem adjoins_replicate (k d : Nat) : Adjoins (List.replicate k .shared) d := by
  cases d with
  | zero => exact outward_replicate k 0
  | succ inner => rw [Adjoins, outward_replicate, outward_replicate]

end Layers

/-! ### Tables -/

/-- What two runs know of the distances of uses of names, and the number up to which nodes are known. -/
structure Tables where
  left : Std.HashMap NodeId Nat
  right : Std.HashMap NodeId Nat
  known : NodeId

namespace Tables

/-- Tables that know more, and the same of what was known. -/
structure Le (U V : Tables) : Prop where
  known : U.known ≤ V.known
  left : ∀ i, i < U.known → V.left[i]? = U.left[i]?
  right : ∀ i, i < U.known → V.right[i]? = U.right[i]?

theorem Le.refl (U : Tables) : U.Le U := ⟨Nat.le_refl _, fun _ _ => rfl, fun _ _ => rfl⟩

/-- The distances of a use of a name fit the layers around it.  The two frames that a use of `super` looks into are
next to each other in both runs. -/
structure Fits (U : Tables) (Γ : Layers) (u : UseKind × Reference NodeId) : Prop where
  known : u.2.id < U.known
  moved : U.right[u.2.id]? = U.left[u.2.id]?.map Γ.outward
  adjacent : u.1 = .super → ∀ d, U.left[u.2.id]? = some d → Γ.Adjoins d

/-- The distances of uses of names fit. -/
def FitsAll (U : Tables) (Γ : Layers) (us : List (UseKind × Reference NodeId)) : Prop := ∀ u ∈ us, U.Fits Γ u

variable {U V : Tables} {Γ : Layers}

theorem Fits.mono (h : U.Le V) {u : UseKind × Reference NodeId} (hu : U.Fits Γ u) : V.Fits Γ u where
  known := Nat.lt_of_lt_of_le hu.known h.known
  moved := by rw [h.left _ hu.known, h.right _ hu.known, hu.moved]
  adjacent hs := by
    rw [h.left _ hu.known]
    exact hu.adjacent hs

theorem FitsAll.mono (h : U.Le V) {us : List (UseKind × Reference NodeId)} (hu : U.FitsAll Γ us) :
    V.FitsAll Γ us := fun u hm => (hu u hm).mono h

theorem FitsAll.left {us vs : List (UseKind × Reference NodeId)} (h : U.FitsAll Γ (us ++ vs)) : U.FitsAll Γ us :=
  fun u hu => h u (List.mem_append_left _ hu)

theorem FitsAll.right {us vs : List (UseKind × Reference NodeId)} (h : U.FitsAll Γ (us ++ vs)) : U.FitsAll Γ vs :=
  fun u hu => h u (List.mem_append_right _ hu)

end Tables

/-! ### Code -/

variable (U : Tables)

mutual

/-- Statements that are the same but for braces, at a place with given layers. -/
inductive BracedStmt : Layers → Stmt NodeId → Stmt NodeId → Prop
  | same {Γ : Layers} {s s' : Stmt NodeId} (h : BracedNode Γ s s') : BracedStmt Γ s s'
  | braced {Γ : Layers} {s s' : Stmt NodeId} (h : BracedNode (.extra :: Γ) s s') : BracedStmt Γ s (.block [s'])

/-- Statements without braces of their own that are the same but for braces inside. -/
inductive BracedNode : Layers → Stmt NodeId → Stmt NodeId → Prop
  | expression {Γ : Layers} {e : Expr NodeId} (he : U.FitsAll Γ e.references) :
      BracedNode Γ (.expression e) (.expression e)
  | print {Γ : Layers} {e : Expr NodeId} (he : U.FitsAll Γ e.references) : BracedNode Γ (.print e) (.print e)
  | var {Γ : Layers} {t : Lexeme} {e : Option (Expr NodeId)} (ho : Γ.Open)
      (he : ∀ x ∈ e, U.FitsAll Γ x.references) : BracedNode Γ (.var t e) (.var t e)
  | block {Γ : Layers} {body body' : List (Stmt NodeId)} (h : BracedStmts (.shared :: Γ) body body') :
      BracedNode Γ (.block body) (.block body')
  | ite {Γ : Layers} {c : Expr NodeId} {yes yes' : Stmt NodeId} (hc : U.FitsAll Γ c.references)
      (hy : BracedStmt Γ yes yes') : BracedNode Γ (.ite c yes none) (.ite c yes' none)
  | iteElse {Γ : Layers} {c : Expr NodeId} {yes yes' no no' : Stmt NodeId} (hc : U.FitsAll Γ c.references)
      (hy : BracedStmt Γ yes yes') (hn : BracedStmt Γ no no') :
      BracedNode Γ (.ite c yes (some no)) (.ite c yes' (some no'))
  | while {Γ : Layers} {c : Expr NodeId} {body body' : Stmt NodeId} (hc : U.FitsAll Γ c.references)
      (hb : BracedStmt Γ body body') : BracedNode Γ (.while c body) (.while c body')
  | function {Γ : Layers} {d d' : FunDecl NodeId} (ho : Γ.Open) (h : BracedFun Γ d d') :
      BracedNode Γ (.function d) (.function d')
  | ret {Γ : Layers} (t : Lexeme) {e : Option (Expr NodeId)} (he : ∀ x ∈ e, U.FitsAll Γ x.references) :
      BracedNode Γ (.ret t e) (.ret t e)
  | base {Γ : Layers} {t : Lexeme} {ms ms' : List (FunDecl NodeId)} (ho : Γ.Open)
      (hm : BracedFuns (.shared :: Γ) ms ms') : BracedNode Γ (.cls t none ms) (.cls t none ms')
  | derived {Γ : Layers} {t : Lexeme} {r : Reference NodeId} {ms ms' : List (FunDecl NodeId)} (ho : Γ.Open)
      (hr : U.Fits Γ (.read, r)) (hm : BracedFuns (.shared :: .shared :: Γ) ms ms') :
      BracedNode Γ (.cls t (some r) ms) (.cls t (some r) ms')

/-- Statements in order that are the same but for braces. -/
inductive BracedStmts : Layers → List (Stmt NodeId) → List (Stmt NodeId) → Prop
  | nil (Γ : Layers) : BracedStmts Γ [] []
  | cons {Γ : Layers} {s s' : Stmt NodeId} {ss ss' : List (Stmt NodeId)} (h : BracedStmt Γ s s')
      (hs : BracedStmts Γ ss ss') : BracedStmts Γ (s :: ss) (s' :: ss')

/-- Function declarations that are the same but for braces. -/
inductive BracedFun : Layers → FunDecl NodeId → FunDecl NodeId → Prop
  | mk {Γ : Layers} (t : Lexeme) (params : List Lexeme) {body body' : List (Stmt NodeId)}
      (h : BracedStmts (.shared :: Γ) body body') : BracedFun Γ (.mk t params body) (.mk t params body')

/-- Function declarations in order that are the same but for braces. -/
inductive BracedFuns : Layers → List (FunDecl NodeId) → List (FunDecl NodeId) → Prop
  | nil (Γ : Layers) : BracedFuns Γ [] []
  | cons {Γ : Layers} {d d' : FunDecl NodeId} {ds ds' : List (FunDecl NodeId)} (h : BracedFun Γ d d')
      (hs : BracedFuns Γ ds ds') : BracedFuns Γ (d :: ds) (d' :: ds')

end

variable {U} {Γ : Layers} {d d' : FunDecl NodeId}

theorem BracedFun.name_eq (h : BracedFun U Γ d d') : d'.name = d.name := by
  cases h
  rfl

theorem BracedFun.params_eq (h : BracedFun U Γ d d') : d'.params = d.params := by
  cases h
  rfl

section mono

variable {V : Tables}

mutual

theorem BracedStmt.mono (hV : U.Le V) : ∀ {Γ : Layers} {s s' : Stmt NodeId}, BracedStmt U Γ s s' →
    BracedStmt V Γ s s'
  | _, _, _, .same h => .same (h.mono hV)
  | _, _, _, .braced h => .braced (h.mono hV)

theorem BracedNode.mono (hV : U.Le V) : ∀ {Γ : Layers} {s s' : Stmt NodeId}, BracedNode U Γ s s' →
    BracedNode V Γ s s'
  | _, _, _, .expression he => .expression (he.mono hV)
  | _, _, _, .print he => .print (he.mono hV)
  | _, _, _, .var ho he => .var ho fun x hx => (he x hx).mono hV
  | _, _, _, .block h => .block (h.mono hV)
  | _, _, _, .ite hc hy => .ite (hc.mono hV) (hy.mono hV)
  | _, _, _, .iteElse hc hy hn => .iteElse (hc.mono hV) (hy.mono hV) (hn.mono hV)
  | _, _, _, .while hc hb => .while (hc.mono hV) (hb.mono hV)
  | _, _, _, .function ho h => .function ho (h.mono hV)
  | _, _, _, .ret t he => .ret t fun x hx => (he x hx).mono hV
  | _, _, _, .base ho hm => .base ho (hm.mono hV)
  | _, _, _, .derived ho hr hm => .derived ho (hr.mono hV) (hm.mono hV)

theorem BracedStmts.mono (hV : U.Le V) : ∀ {Γ : Layers} {ss ss' : List (Stmt NodeId)}, BracedStmts U Γ ss ss' →
    BracedStmts V Γ ss ss'
  | _, _, _, .nil Γ => .nil Γ
  | _, _, _, .cons h hs => .cons (h.mono hV) (hs.mono hV)

theorem BracedFun.mono (hV : U.Le V) : ∀ {Γ : Layers} {d d' : FunDecl NodeId}, BracedFun U Γ d d' →
    BracedFun V Γ d d'
  | _, _, _, .mk t params h => .mk t params (h.mono hV)

theorem BracedFuns.mono (hV : U.Le V) : ∀ {Γ : Layers} {ds ds' : List (FunDecl NodeId)}, BracedFuns U Γ ds ds' →
    BracedFuns V Γ ds ds'
  | _, _, _, .nil Γ => .nil Γ
  | _, _, _, .cons h hs => .cons (h.mono hV) (hs.mono hV)

end

end mono

/-! ### Code without redundant braces -/

/-- The statement that braces alone contain, unless it is a declaration; a block that is needed stays. -/
def Stmt.ofBody {ι : Type} : List (Stmt ι) → Stmt ι
  | [s] => if s.declared? = none then s else .block [s]
  | body => .block body

mutual

/-- A statement without braces around single statements that declare nothing. -/
def Stmt.unbraced {ι : Type} : Stmt ι → Stmt ι
  | .block body => .ofBody (Stmt.unbracedAll body)
  | .ite condition yes none => .ite condition yes.unbraced none
  | .ite condition yes (some no) => .ite condition yes.unbraced (some no.unbraced)
  | .while condition body => .while condition body.unbraced
  | .function decl => .function decl.unbraced
  | .cls name superclass methods => .cls name superclass (FunDecl.unbracedEach methods)
  | s => s

/-- Statements without redundant braces. -/
def Stmt.unbracedAll {ι : Type} : List (Stmt ι) → List (Stmt ι)
  | [] => []
  | s :: rest => s.unbraced :: Stmt.unbracedAll rest

/-- A function without redundant braces. -/
def FunDecl.unbraced {ι : Type} : FunDecl ι → FunDecl ι
  | .mk name params body => .mk name params (Stmt.unbracedAll body)

/-- Functions without redundant braces. -/
def FunDecl.unbracedEach {ι : Type} : List (FunDecl ι) → List (FunDecl ι)
  | [] => []
  | decl :: rest => decl.unbraced :: FunDecl.unbracedEach rest

end

theorem FunDecl.name_unbraced (d : FunDecl NodeId) : d.unbraced.name = d.name := by
  cases d
  rfl

theorem Stmt.declared?_ofBody (body : List (Stmt NodeId)) : (Stmt.ofBody body).declared? = none := by
  unfold Stmt.ofBody
  split
  · split
    · assumption
    · rfl
  · rfl

theorem Stmt.declared?_unbraced (s : Stmt NodeId) : s.unbraced.declared? = s.declared? := by
  cases s with
  | block body => exact Stmt.declared?_ofBody _
  | ite condition yes no => cases no <;> rfl
  | function decl => exact congrArg some decl.name_unbraced
  | _ => rfl

/-- Inside extra braces nothing is declared. -/
theorem BracedNode.declared?_eq_none {s s' : Stmt NodeId} (h : BracedNode U (.extra :: Γ) s s') :
    s'.declared? = none := by
  cases h with
  | var ho _ => exact absurd rfl ho
  | function ho _ => exact absurd rfl ho
  | base ho _ => exact absurd rfl ho
  | derived ho _ _ => exact absurd rfl ho
  | _ => rfl

mutual

theorem BracedStmt.unbraced_eq : ∀ {Γ : Layers} {s s' : Stmt NodeId}, BracedStmt U Γ s s' →
    s'.unbraced = s.unbraced
  | _, _, _, .same h => h.unbraced_eq
  | _, _, _, .braced h => by
      rw [← h.unbraced_eq]
      change Stmt.ofBody [Stmt.unbraced _] = _
      rw [Stmt.ofBody, if_pos]
      rw [Stmt.declared?_unbraced, h.declared?_eq_none]

theorem BracedNode.unbraced_eq : ∀ {Γ : Layers} {s s' : Stmt NodeId}, BracedNode U Γ s s' →
    s'.unbraced = s.unbraced
  | _, _, _, .expression _ => rfl
  | _, _, _, .print _ => rfl
  | _, _, _, .var _ _ => rfl
  | _, _, _, .block h => congrArg Stmt.ofBody h.unbraced_eq
  | _, _, _, .ite _ hy => congrArg (Stmt.ite _ · none) hy.unbraced_eq
  | _, _, _, .iteElse _ hy hn => congrArg₂ (Stmt.ite _ · <| some ·) hy.unbraced_eq hn.unbraced_eq
  | _, _, _, .while _ hb => congrArg (Stmt.while _) hb.unbraced_eq
  | _, _, _, .function _ h => congrArg Stmt.function h.unbraced_eq
  | _, _, _, .ret _ _ => rfl
  | _, _, _, .base _ hm => congrArg (Stmt.cls _ none) hm.unbraced_eq
  | _, _, _, .derived _ _ hm => congrArg (Stmt.cls _ (some _)) hm.unbraced_eq

theorem BracedStmts.unbraced_eq : ∀ {Γ : Layers} {ss ss' : List (Stmt NodeId)}, BracedStmts U Γ ss ss' →
    Stmt.unbracedAll ss' = Stmt.unbracedAll ss
  | _, _, _, .nil _ => rfl
  | _, _, _, .cons h hs => congrArg₂ List.cons h.unbraced_eq hs.unbraced_eq

/-- Declarations that are the same but for braces are the same without redundant ones. -/
theorem BracedFun.unbraced_eq : ∀ {Γ : Layers} {d d' : FunDecl NodeId}, BracedFun U Γ d d' →
    d'.unbraced = d.unbraced
  | _, _, _, .mk t params h => congrArg (FunDecl.mk t params) h.unbraced_eq

theorem BracedFuns.unbraced_eq : ∀ {Γ : Layers} {ds ds' : List (FunDecl NodeId)}, BracedFuns U Γ ds ds' →
    FunDecl.unbracedEach ds' = FunDecl.unbracedEach ds
  | _, _, _, .nil _ => rfl
  | _, _, _, .cons h hs => congrArg₂ List.cons h.unbraced_eq hs.unbraced_eq

end

end Lox
