import Letrec.Term.Basic

/-!
# Annotations

The nodes of a term are visited in pre-order: a node before its subterms, and the subterms from
left to right (function before argument, bound term before body, scrutinee before alternatives).
`annotations` lists the annotations in that order, `foldl` folds over them and `mapAccum` replaces
them one by one with a state that is handed on from node to node.
-/

namespace Letrec.Term

variable {α β σ : Type}

mutual

/-- All annotations in pre-order. -/
def annotations : Term α → List α
  | lit a _ | var a _ _ | builtin a _ => [a]
  | app a f s => a :: (f.annotations ++ s.annotations)
  | lam a _ b | fix a b => a :: b.annotations
  | letIn a _ e b => a :: (e.annotations ++ b.annotations)
  | caseOf a s alts => a :: (s.annotations ++ annotationsAlts alts)

def annotationsAlts : List (Alternative α) → List α
  | [] => []
  | (_, t) :: alts => t.annotations ++ annotationsAlts alts

end

theorem annotationsAlts_eq (alts : List (Alternative α)) :
    annotationsAlts alts = alts.flatMap fun alt => alt.2.annotations := by
  induction alts with
  | nil => rfl
  | cons alt alts ih => simp [annotationsAlts, ih]

mutual

/-- Folds over the annotations in pre-order. -/
def foldl (f : β → α → β) (init : β) : Term α → β
  | lit a _ | var a _ _ | builtin a _ => f init a
  | app a g s => s.foldl f (g.foldl f (f init a))
  | lam a _ b | fix a b => b.foldl f (f init a)
  | letIn a _ e b => b.foldl f (e.foldl f (f init a))
  | caseOf a s alts => foldlAlts f (s.foldl f (f init a)) alts

def foldlAlts (f : β → α → β) (init : β) : List (Alternative α) → β
  | [] => init
  | (_, t) :: alts => foldlAlts f (t.foldl f init) alts

end

mutual

/-- Replaces every annotation by its image. -/
def map (f : α → β) : Term α → Term β
  | lit a v => lit (f a) v
  | var a m x => var (f a) m x
  | builtin a v => builtin (f a) v
  | app a g s => app (f a) (g.map f) (s.map f)
  | lam a x b => lam (f a) x (b.map f)
  | letIn a x e b => letIn (f a) x (e.map f) (b.map f)
  | caseOf a s alts => caseOf (f a) (s.map f) (mapAlts f alts)
  | fix a b => fix (f a) (b.map f)

def mapAlts (f : α → β) : List (Alternative α) → List (Alternative β)
  | [] => []
  | (p, t) :: alts => (p, t.map f) :: mapAlts f alts

end

theorem mapAlts_eq (f : α → β) (alts : List (Alternative α)) :
    mapAlts f alts = alts.map fun alt => (alt.1, alt.2.map f) := by
  induction alts with
  | nil => rfl
  | cons alt alts ih => simp [mapAlts, ih]

mutual

/-- Replaces the annotations in pre-order: `step` turns the state and an annotation into the next
state and the new annotation. -/
def mapAccum (step : σ → α → σ × β) (s : σ) : Term α → σ × Term β
  | lit a v =>
    let (s, a) := step s a
    (s, lit a v)
  | var a m x =>
    let (s, a) := step s a
    (s, var a m x)
  | builtin a v =>
    let (s, a) := step s a
    (s, builtin a v)
  | app a f t =>
    let (s, a) := step s a
    let (s, f) := f.mapAccum step s
    let (s, t) := t.mapAccum step s
    (s, app a f t)
  | lam a x b =>
    let (s, a) := step s a
    let (s, b) := b.mapAccum step s
    (s, lam a x b)
  | letIn a x e b =>
    let (s, a) := step s a
    let (s, e) := e.mapAccum step s
    let (s, b) := b.mapAccum step s
    (s, letIn a x e b)
  | caseOf a t alts =>
    let (s, a) := step s a
    let (s, t) := t.mapAccum step s
    let (s, alts) := mapAccumAlts step s alts
    (s, caseOf a t alts)
  | fix a b =>
    let (s, a) := step s a
    let (s, b) := b.mapAccum step s
    (s, fix a b)

def mapAccumAlts (step : σ → α → σ × β) (s : σ) :
    List (Alternative α) → σ × List (Alternative β)
  | [] => (s, [])
  | (p, t) :: alts =>
    let (s, t) := t.mapAccum step s
    let (s, alts) := mapAccumAlts step s alts
    (s, (p, t) :: alts)

end

end Letrec.Term
