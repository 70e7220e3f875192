import AffineIR.Proofs.Run.Unfolding

/-
  Ways through programs.

  A way leads from the start of a program to one of its
  statements: past statements, into the bodies of loops and
  into branches.  A program arrives at the statement when it
  goes this way, and everything in a trace has been arrived
  at.

  Main declarations:
    * `Prog.Arrives.split`, `Prog.Arrives.once`
-/

namespace AffineIR

open List

variable {a : Act} {v var : ValueId} {body q₀ rest : Prog} {k : Store → Play} {is : List Int}

namespace Prog

/- What a way goes past or into. -/
inductive Mark where
  | past (a : Act)
  | inside (a : Act) (var : ValueId)
  | branch (a : Act) (taken : Bool)

def Mark.act : Mark → Act
  | past a => a
  | inside a _ => a
  | branch a _ => a

/- What is bound where a way goes on behind a mark. -/
def Mark.bound : Mark → List ValueId
  | past a => a.bound
  | inside _ var => [var]
  | branch _ _ => []

/- The loops that a way goes into, outermost first. -/
def loopsOf : List Mark → List (OpId × ValueId)
  | [] => []
  | .inside a var :: w => (a.op, var) :: loopsOf w
  | .past _ :: w => loopsOf w
  | .branch _ _ :: w => loopsOf w

theorem loopsOf_append (w w' : List Mark) : loopsOf (w ++ w') = loopsOf w ++ loopsOf w' := by
  induction w with
  | nil => rfl
  | cons k w ih => cases k <;> simp [loopsOf, ih]

theorem mem_loopsOf_iff
    {w : List Mark} {l : OpId} : (l, v) ∈ loopsOf w ↔ ∃ a, .inside a v ∈ w ∧ a.op = l := by
  induction w with
  | nil => simp [loopsOf]
  | cons k w ih =>
    cases k <;> simp [loopsOf, ih]
    grind

/- A way from the start of a program to the start of a part. -/
inductive Leads : Prog → List Mark → Prog → Prop
  | here (p : Prog) : Leads p [] p
  | act {a : Act} {rest q : Prog} {w : List Mark}
      (hRest : Leads rest w q) : Leads (act a rest) (.past a :: w) q
  | body {a : Act} {var : ValueId} {body rest q : Prog} {w : List Mark} (hBody : Leads body w q) :
      Leads (loop a var body rest) (.inside a var :: w) q
  | loop {a : Act} {var : ValueId} {body rest q : Prog} {w : List Mark}
      (hRest : Leads rest w q) : Leads (loop a var body rest) w q
  | branch {a : Act} {taken : Bool} {branch : Bool → Prog} {rest q : Prog} {w : List Mark}
      (hBranch : Leads (branch taken) w q) : Leads (cond a branch rest) (.branch a taken :: w) q
  | cond {a : Act} {branch : Bool → Prog} {rest q : Prog} {w : List Mark}
      (hRest : Leads rest w q) : Leads (cond a branch rest) w q

/- A program goes a way, with the trace and the store that it leaves. -/
inductive Arrives : Prog → Store → List Mark → Trace → Prog → Store → Prop
  | here (p : Prog) (σ : Store) : Arrives p σ [] [] p σ
  | act {a : Act} {rest q : Prog} {w : List Mark} {t : Trace} {σ σ₁ τ : Store}
      (hStep : a.step σ = some σ₁) (hRest : Arrives rest σ₁ w t q τ) :
      Arrives (act a rest) σ (.past a :: w) ((a, σ) :: t) q τ
  | body {a : Act} {var : ValueId} {body rest q : Prog} {w : List Mark}
      {is js : List Int} {i : Int} {t₁ t₂ : Trace} {σ σ₁ τ : Store}
      (hValues : a.values? σ = some (is ++ i :: js))
      (hEach : each body.run var is σ = some (t₁, σ₁))
      (hBody : Arrives body (σ₁.count var i) w t₂ q τ) :
      Arrives (loop a var body rest) σ (.inside a var :: w) ((a, σ) :: (t₁ ++ t₂)) q τ
  | loop {a : Act} {var : ValueId} {body rest q : Prog} {w : List Mark}
      {is : List Int} {t₁ t₂ : Trace} {σ σ₁ τ : Store} (hValues : a.values? σ = some is)
      (hEach : each body.run var is σ = some (t₁, σ₁)) (hRest : Arrives rest σ₁ w t₂ q τ) :
      Arrives (loop a var body rest) σ w ((a, σ) :: (t₁ ++ t₂)) q τ
  | branch {a : Act} {taken : Bool} {branch : Bool → Prog} {rest q : Prog} {w : List Mark}
      {t : Trace} {σ τ : Store} (hHolds : a.holds? σ = some taken)
      (hBranch : Arrives (branch taken) σ w t q τ) :
      Arrives (cond a branch rest) σ (.branch a taken :: w) ((a, σ) :: t) q τ
  | cond {a : Act} {taken : Bool} {branch : Bool → Prog} {rest q : Prog} {w : List Mark}
      {t₁ t₂ : Trace} {σ σ₁ τ : Store} (hHolds : a.holds? σ = some taken)
      (hRun : (branch taken).run σ = some (t₁, σ₁)) (hRest : Arrives rest σ₁ w t₂ q τ) :
      Arrives (cond a branch rest) σ w ((a, σ) :: (t₁ ++ t₂)) q τ

variable {p q q' : Prog} {w w' : List Mark} {t t' u : Trace} {σ σ' τ τ' : Store} {e : Act × Store}
  {b : Act} {branch : Bool → Prog}

theorem Arrives.leads (hArrives : p.Arrives σ w t q τ) : p.Leads w q := by
  induction hArrives with
  | here p σ => exact .here p
  | act _ _ ih => exact .act ih
  | body _ _ _ ih => exact .body ih
  | loop _ _ _ ih => exact .loop ih
  | branch _ _ ih => exact .branch ih
  | cond _ _ _ ih => exact .cond ih

/- One way after the other. -/
theorem Leads.trans (hFirst : p.Leads w q) (hSecond : q.Leads w' q') : p.Leads (w ++ w') q' := by
  induction hFirst with
  | here p => exact hSecond
  | act _ ih => exact .act (ih hSecond)
  | body _ ih => exact .body (ih hSecond)
  | loop _ ih => exact .loop (ih hSecond)
  | branch _ ih => exact .branch (ih hSecond)
  | cond _ ih => exact .cond (ih hSecond)

theorem Arrives.trans (hFirst : p.Arrives σ w t q τ)
    (hSecond : q.Arrives τ w' t' q' τ') : p.Arrives σ (w ++ w') (t ++ t') q' τ' := by
  induction hFirst with
  | here p σ => exact hSecond
  | act hStep _ ih => exact .act hStep (ih hSecond)
  | body hValues hEach _ ih =>
    rw [List.cons_append, List.cons_append, List.append_assoc]
    exact .body hValues hEach (ih hSecond)
  | loop hValues hEach _ ih =>
    rw [List.cons_append, List.append_assoc]
    exact .loop hValues hEach (ih hSecond)
  | branch hHolds _ ih => exact .branch hHolds (ih hSecond)
  | cond hHolds hRun _ ih =>
    rw [List.cons_append, List.append_assoc]
    exact .cond hHolds hRun (ih hSecond)

------
-- Parts of programs
------

/- A part has its operations in the order of the whole. -/
theorem Leads.sublist_ids (hLeads : p.Leads w q) : q.ids.Sublist p.ids := by
  induction hLeads with
  | here p => exact List.Sublist.refl _
  | act _ ih => exact ih.cons _
  | body _ ih => exact (ih.trans (sublist_append_left ..)).cons _
  | loop _ ih => exact (ih.trans (sublist_append_right ..)).cons _
  | branch _ ih => exact ((ih.trans (branch_sublist ..)).trans (sublist_append_left ..)).cons _
  | cond _ ih => exact (ih.trans (sublist_append_right ..)).cons _

theorem Leads.does (hLeads : p.Leads w q) (hDoes : q.Does a) : p.Does a := by
  induction hLeads with
  | here p => exact hDoes
  | act _ ih => exact .inr (ih hDoes)
  | body _ ih => exact .inl (ih hDoes)
  | loop _ ih => exact .inr (ih hDoes)
  | branch _ ih => exact .inl ⟨_, ih hDoes⟩
  | cond _ ih => exact .inr (ih hDoes)

theorem Leads.counts (hLeads : p.Leads w q) (hCounts : q.Counts v) : p.Counts v := by
  induction hLeads with
  | here p => exact hCounts
  | act _ ih => exact ih hCounts
  | body _ ih => exact .inr (.inl (ih hCounts))
  | loop _ ih => exact .inr (.inr (ih hCounts))
  | branch _ ih => exact .inl ⟨_, ih hCounts⟩
  | cond _ ih => exact .inr (ih hCounts)

theorem Leads.binds (hLeads : p.Leads w q) (hBinds : q.Binds v) : p.Binds v := by
  rcases binds_iff.mp hBinds with ⟨a, hDoes, hMem⟩ | hCounts
  · exact binds_iff.mpr (.inl ⟨a, hLeads.does hDoes, hMem⟩)
  · exact binds_iff.mpr (.inr (hLeads.counts hCounts))

theorem mem_ids_of_head (hHead : p.head? = some b) : b.op ∈ p.ids := by
  cases p <;> cases hHead <;> exact mem_cons_self

theorem Leads.mem_ids (hLeads : p.Leads w q) (hHead : q.head? = some b) : b.op ∈ p.ids :=
  hLeads.sublist_ids.subset (mem_ids_of_head hHead)

/- A mark goes from a statement into or past it. -/
inductive Mark.Opens : Mark → Prog → Prog → Prop
  | past {a : Act} {rest : Prog} : Opens (.past a) (.act a rest) rest
  | inside {a : Act} {var : ValueId} {body rest : Prog} :
      Opens (.inside a var) (.loop a var body rest) body
  | branch {a : Act} {taken : Bool} {branch : Bool → Prog} {rest : Prog} :
      Opens (.branch a taken) (.cond a branch rest) (branch taken)

theorem Mark.Opens.head {k : Mark} (hOpens : k.Opens q q') : q.head? = some k.act := by
  cases hOpens <;> rfl

/- A way comes to each of its marks, and goes on behind it. -/
theorem Leads.at_mark {k : Mark} (hLeads : p.Leads w q) (hMem : k ∈ w) :
    ∃ w₁ w₂ q₁ q₂, w = w₁ ++ k :: w₂ ∧ p.Leads w₁ q₁ ∧ k.Opens q₁ q₂ ∧ q₂.Leads w₂ q := by
  induction hLeads with
  | here p => cases hMem
  | act hRest ih =>
    rcases mem_cons.mp hMem with rfl | hMem
    · exact ⟨[], _, _, _, rfl, .here _, .past, hRest⟩
    · obtain ⟨w₁, w₂, q₁, q₂, rfl, hFirst, hThere⟩ := ih hMem
      exact ⟨_ :: w₁, w₂, q₁, q₂, rfl, .act hFirst, hThere⟩
  | body hBody ih =>
    rcases mem_cons.mp hMem with rfl | hMem
    · exact ⟨[], _, _, _, rfl, .here _, .inside, hBody⟩
    · obtain ⟨w₁, w₂, q₁, q₂, rfl, hFirst, hThere⟩ := ih hMem
      exact ⟨_ :: w₁, w₂, q₁, q₂, rfl, .body hFirst, hThere⟩
  | loop _ ih =>
    obtain ⟨w₁, w₂, q₁, q₂, hEq, hFirst, hThere⟩ := ih hMem
    exact ⟨w₁, w₂, q₁, q₂, hEq, .loop hFirst, hThere⟩
  | branch hBranch ih =>
    rcases mem_cons.mp hMem with rfl | hMem
    · exact ⟨[], _, _, _, rfl, .here _, .branch, hBranch⟩
    · obtain ⟨w₁, w₂, q₁, q₂, rfl, hFirst, hThere⟩ := ih hMem
      exact ⟨_ :: w₁, w₂, q₁, q₂, rfl, .branch hFirst, hThere⟩
  | cond _ ih =>
    obtain ⟨w₁, w₂, q₁, q₂, hEq, hFirst, hThere⟩ := ih hMem
    exact ⟨w₁, w₂, q₁, q₂, hEq, .cond hFirst, hThere⟩

/- What a way goes past or into is in the program. -/
theorem Leads.mem_ids_of_mark {k : Mark} (hLeads : p.Leads w q)
    (hMem : k ∈ w) : k.act.op ∈ p.ids := by
  obtain ⟨_, _, _, _, _, hFirst, hOpens, _⟩ := hLeads.at_mark hMem
  exact hFirst.mem_ids hOpens.head

/- What holds along every run holds along every way that is gone. -/
theorem Along.arrives {P : Store → Trace → Store → Prop} (hAlong : p.Along P)
    (hArrives : p.Arrives σ w t q τ) : P σ t τ := by
  induction hArrives with
  | here p σ => exact hAlong.refl σ
  | act hStep _ ih => exact hAlong.trans (hAlong.step (.inl rfl) hStep) (ih hAlong.of_act)
  | body _ hEach _ ih =>
    have hBody := hAlong.of_body
    exact hAlong.trans (hAlong.head _ _) (hAlong.trans (hAlong.each (.inl rfl) hBody.run hEach)
        (hAlong.trans (hAlong.count (.inl rfl) _ _) (ih hBody)))
  | loop _ hEach _ ih =>
    exact hAlong.trans (hAlong.head _ _)
      (hAlong.trans (hAlong.each (.inl rfl) hAlong.of_body.run hEach) (ih hAlong.of_loop))
  | branch _ _ ih => exact hAlong.trans (hAlong.head _ _) (ih (hAlong.of_branch _))
  | cond _ hRun _ ih =>
    exact hAlong.trans (hAlong.head _ _)
      (hAlong.trans ((hAlong.of_branch _).run hRun) (ih hAlong.of_cond))

------
-- What is in a trace has been arrived at
------

/- A place in a play is in its first part or behind it. -/
theorem split_andPlay {r : Play} (hTrace : (andPlay r k).1 = t ++ e :: u) :
    (∃ u', r.1 = t ++ e :: u') ∨ ∃ t₁ σ₁ t₂, r = (t₁, .ok σ₁) ∧ t = t₁ ++ t₂ ∧
        (k σ₁).1 = t₂ ++ e :: u := by
  obtain ⟨t₁, σ₁ | σ₁⟩ := r
  · exact .inl ⟨u, hTrace⟩
  · rcases append_eq_append_iff.mp hTrace with ⟨t₂, rfl, hRest⟩ | ⟨u₁, hFirst, hRest⟩
    · exact .inr ⟨t₁, σ₁, t₂, rfl, rfl, hRest⟩
    · cases u₁ with
      | nil =>
        rw [append_nil] at hFirst
        exact .inr ⟨t₁, σ₁, [], rfl, by simp [hFirst], hRest.symm⟩
      | cons e' u' =>
        rw [cons_append, List.cons.injEq] at hRest
        exact .inl ⟨u', by rw [hFirst, hRest.1]⟩

theorem split_playEach (hTrace : (playEach body.play var is σ).1 = t ++ e :: u) :
    ∃ is₁ i is₂ t₁ σ₁ t₂ u', is = is₁ ++ i :: is₂ ∧
      each body.run var is₁ σ = some (t₁, σ₁) ∧ t = t₁ ++ t₂ ∧
      (body.play (σ₁.count var i)).1 = t₂ ++ e :: u' := by
  induction is generalizing σ t with
  | nil => simp [playEach] at hTrace
  | cons i is ih =>
    rcases split_andPlay hTrace with ⟨u', hHere⟩ | ⟨t₁, σ₁, t₂, hFirst, rfl, hRest⟩
    · exact ⟨[], i, is, [], σ, t, u', rfl, rfl, rfl, hHere⟩
    · obtain ⟨is₁, j, is₂, t₃, σ₃, t₄, u', rfl, hEach, rfl, hHere⟩ := ih hRest
      refine ⟨i :: is₁, j, is₂, t₁ ++ t₃, σ₃, t₄, u', rfl, ?_, (List.append_assoc ..).symm, hHere⟩
      exact each_cons_iff.mpr ⟨t₁, σ₁, t₃, play_eq_ok_iff.mp hFirst, hEach, rfl⟩

/- A place in a statement and what follows it: the statement, inside it or behind it. -/
theorem split_statement {α : Type} {x : Store → Option α} {inner : Store → α → Play}
    (hTrace : (andPlay (andPlay ([(a, σ)], .ok σ) fun σ => orFail (x σ) σ (inner σ)) k).1 =
      t ++ e :: u) :
    (t = [] ∧ e = (a, σ)) ∨ ∃ y, x σ = some y ∧
      ((∃ t₂ u', t = (a, σ) :: t₂ ∧ (inner σ y).1 = t₂ ++ e :: u') ∨
        ∃ t₁ σ₁ t₂, inner σ y = (t₁, .ok σ₁) ∧ t = (a, σ) :: (t₁ ++ t₂) ∧
          (k σ₁).1 = t₂ ++ e :: u) := by
  rcases split_andPlay hTrace with ⟨u', hHere⟩ | ⟨t₁, σ₁, t₂, hFirst, rfl, hRest⟩
  · rcases split_andPlay hHere with ⟨u', hHead⟩ | ⟨_, _, t₂, hEq, rfl, hInner⟩
    · cases t with
      | nil =>
        cases hHead
        exact .inl ⟨rfl, rfl⟩
      | cons e' t => simp at hHead
    · cases hEq
      cases hSome : x σ with
      | none => simp [hSome, orFail] at hInner
      | some y =>
        rw [hSome] at hInner
        exact .inr ⟨y, rfl, .inl ⟨t₂, u', rfl, hInner⟩⟩
  · obtain ⟨_, _, t₃, hEq, hInner, rfl⟩ := andPlay_eq_ok_iff.mp hFirst
    cases hEq
    obtain ⟨y, hSome, hInner⟩ := orFail_eq_ok_iff.mp hInner
    exact .inr ⟨y, hSome, .inr ⟨t₃, σ₁, t₂, hInner, rfl, hRest⟩⟩

/- Whatever is in a play has been arrived at. -/
theorem arrives_of_play
    (hTrace : (p.play σ).1 = t ++ e :: u) : ∃ w q, p.Arrives σ w t q e.2 ∧ q.head? = some e.1 := by
  induction p generalizing σ t u with
  | nil => simp [play] at hTrace
  | act a rest ih =>
    rcases split_statement hTrace with ⟨rfl, rfl⟩ | ⟨σ', hStep, hInner | hBehind⟩
    · exact ⟨[], _, .here _ σ, rfl⟩
    · obtain ⟨t₂, u', _, hNone⟩ := hInner
      simp at hNone
    · obtain ⟨_, _, t₂, hEq, rfl, hRest⟩ := hBehind
      cases hEq
      obtain ⟨w, q, hArrives, hHead⟩ := ih hRest
      exact ⟨_, q, .act hStep hArrives, hHead⟩
  | loop a var body rest ihBody ih =>
    rcases split_statement hTrace with ⟨rfl, rfl⟩ | ⟨is, hValues, hInner | hBehind⟩
    · exact ⟨[], _, .here _ σ, rfl⟩
    · obtain ⟨_, _, rfl, hEach⟩ := hInner
      obtain ⟨is₁, i, is₂, t₁, σ₁, t₂, u', rfl, hBefore, rfl, hBody⟩ := split_playEach hEach
      obtain ⟨w, q, hArrives, hHead⟩ := ihBody hBody
      exact ⟨_, q, .body hValues hBefore hArrives, hHead⟩
    · obtain ⟨t₁, σ₁, t₂, hEach, rfl, hRest⟩ := hBehind
      obtain ⟨w, q, hArrives, hHead⟩ := ih hRest
      exact ⟨_, q, .loop hValues ((playEach_eq_ok_iff play_eq_ok_iff).mp hEach) hArrives, hHead⟩
  | cond a branch rest ihBranch ih =>
    rcases split_statement hTrace with ⟨rfl, rfl⟩ | ⟨taken, hHolds, hInner | hBehind⟩
    · exact ⟨[], _, .here _ σ, rfl⟩
    · obtain ⟨_, _, rfl, hBranch⟩ := hInner
      obtain ⟨w, q, hArrives, hHead⟩ := ihBranch taken hBranch
      exact ⟨_, q, .branch hHolds hArrives, hHead⟩
    · obtain ⟨t₁, σ₁, t₂, hBranch, rfl, hRest⟩ := hBehind
      obtain ⟨w, q, hArrives, hHead⟩ := ih hRest
      exact ⟨_, q, .cond hHolds (play_eq_ok_iff.mp hBranch) hArrives, hHead⟩

theorem arrives_of_mem_run (hRun : p.run σ = some (t, σ'))
    (hMem : e ∈ t) : ∃ w t₁ q, p.Arrives σ w t₁ q e.2 ∧ q.head? = some e.1 := by
  obtain ⟨t₁, t₂, rfl⟩ := append_of_mem hMem
  obtain ⟨w, q, hArrives, hHead⟩ := arrives_of_play (congrArg Prod.fst (play_eq_ok_iff.mpr hRun))
  exact ⟨w, t₁, q, hArrives, hHead⟩

/- What happened in some iterations happened in one of them. -/
theorem arrives_of_mem_each (hEach : each body.run var is σ = some (t, σ')) (hMem : e ∈ t) :
    ∃ is₁ i is₂ t₁ σ₁ w t₂ q, is = is₁ ++ i :: is₂ ∧ each body.run var is₁ σ = some (t₁, σ₁) ∧
      body.Arrives (σ₁.count var i) w t₂ q e.2 ∧ q.head? = some e.1 := by
  obtain ⟨t₁, t₂, rfl⟩ := append_of_mem hMem
  rcases split_playEach (congrArg Prod.fst ((playEach_eq_ok_iff play_eq_ok_iff).mpr hEach)) with
    ⟨is₁, i, is₂, t₃, σ₃, t₄, u, hValues, hBefore, _, hBody⟩
  obtain ⟨w, q, hArrives, hHead⟩ := arrives_of_play hBody
  exact ⟨is₁, i, is₂, t₃, σ₃, w, t₄, q, hValues, hBefore, hArrives, hHead⟩

------
-- Arrivals at parts of a program
------

/- The operations of a loop, if none is there twice. -/
structure LoopIds (a : Act) (body rest : Prog) : Prop where
  head_body : a.op ∉ body.ids
  head_rest : a.op ∉ rest.ids
  nodup_body : body.ids.Nodup
  nodup_rest : rest.ids.Nodup
  apart {x : OpId} (hBody : x ∈ body.ids) : x ∉ rest.ids

theorem LoopIds.of_sublist {inner : List OpId} (hNodup : (a.op :: (inner ++ rest.ids)).Nodup)
    (hSub : body.ids.Sublist inner) : LoopIds a body rest := by
  obtain ⟨hHead, hParts⟩ := nodup_cons.mp hNodup
  obtain ⟨hInner, hRest, hApart⟩ := nodup_append.mp hParts
  rw [mem_append, not_or] at hHead
  exact ⟨fun hIn => hHead.1 (hSub.subset hIn), hHead.2, hInner.sublist hSub, hRest,
    fun hIn hOut => hApart _ (hSub.subset hIn) _ hOut rfl⟩

theorem loopIds (hNodup : (loop a var body rest).ids.Nodup) : LoopIds a body rest :=
  .of_sublist hNodup (.refl _)

/- The operations of a branch, seen as those of a loop's body. -/
theorem branchIds (taken : Bool)
    (hNodup : (cond a branch rest).ids.Nodup) : LoopIds a (branch taken) rest :=
  .of_sublist hNodup (branch_sublist branch taken)

/- No operation is in both branches. -/
theorem eq_of_mem_branches {x : OpId} {taken taken' : Bool}
    (hNodup : (cond a branch rest).ids.Nodup) (hFirst : x ∈ (branch taken).ids)
    (hSecond : x ∈ (branch taken').ids) : taken = taken' := by
  have hApart := (nodup_append.mp (nodup_append.mp (nodup_cons.mp hNodup).2).1).2.2
  cases taken <;> cases taken'
  · rfl
  · exact absurd rfl (hApart _ hSecond _ hFirst)
  · exact absurd rfl (hApart _ hFirst _ hSecond)
  · rfl

/- The statement that is arrived at is in the program. -/
theorem Arrives.mem_ids (hArrives : p.Arrives σ w t q τ)
    (hHead : q.head? = some b) : b.op ∈ p.ids := hArrives.leads.mem_ids hHead

/- What a program executes is in it. -/
theorem mem_ids_of_run (hRun : p.run σ = some (t, σ')) (hMem : e ∈ t) : e.1.op ∈ p.ids := by
  obtain ⟨w, t₁, q, hArrives, hHead⟩ := arrives_of_mem_run hRun hMem
  exact hArrives.mem_ids hHead

theorem mem_ids_of_each (hEach : each body.run var is σ = some (t, σ'))
    (hMem : e ∈ t) : e.1.op ∈ body.ids := by
  obtain ⟨_, _, _, _, _, w, t₂, q, _, _, hArrives, hHead⟩ := arrives_of_mem_each hEach hMem
  exact hArrives.mem_ids hHead

/- A program that arrives in a part has arrived at its start. -/
theorem Arrives.split {w₀ : List Mark} (hNodup : p.ids.Nodup) (hPart : p.Leads w₀ q₀)
    (hArrives : p.Arrives σ w t q τ) (hHead : q.head? = some b) (hInside : b.op ∈ q₀.ids) :
    ∃ t₀ σ₀ w₁ t₁, w = w₀ ++ w₁ ∧ t = t₀ ++ t₁ ∧
      p.Arrives σ w₀ t₀ q₀ σ₀ ∧ q₀.Arrives σ₀ w₁ t₁ q τ := by
  induction hPart generalizing σ w t with
  | here p => exact ⟨[], σ, w, t, rfl, rfl, .here p σ, hArrives⟩
  | act hRest ih =>
    have hIds := nodup_cons.mp hNodup
    cases hArrives with
    | here =>
      cases hHead
      exact absurd (hRest.sublist_ids.subset hInside) hIds.1
    | act hStep hArrives =>
      obtain ⟨t₀, σ₀, w₁, t₁, rfl, rfl, hFirst, hSecond⟩ := ih hIds.2 hArrives hInside
      exact ⟨_, σ₀, w₁, t₁, rfl, rfl, .act hStep hFirst, hSecond⟩
  | body hBody ih =>
    have hIds := loopIds hNodup
    have hInner := hBody.sublist_ids.subset hInside
    cases hArrives with
    | here =>
      cases hHead
      exact absurd hInner hIds.head_body
    | body hValues hEach hArrives =>
      obtain ⟨t₀, σ₀, w₁, t₁, rfl, rfl, hFirst, hSecond⟩ := ih hIds.nodup_body hArrives hInside
      refine ⟨_, σ₀, w₁, t₁, rfl, ?_, .body hValues hEach hFirst, hSecond⟩
      rw [List.cons_append, List.append_assoc]
    | loop hValues hEach hArrives => exact absurd (hArrives.mem_ids hHead) (hIds.apart hInner)
  | loop hRest ih =>
    have hIds := loopIds hNodup
    have hOuter := hRest.sublist_ids.subset hInside
    cases hArrives with
    | here =>
      cases hHead
      exact absurd hOuter hIds.head_rest
    | body hValues hEach hArrives => exact absurd hOuter (hIds.apart (hArrives.mem_ids hHead))
    | loop hValues hEach hArrives =>
      obtain ⟨t₀, σ₀, w₁, t₁, rfl, rfl, hFirst, hSecond⟩ := ih hIds.nodup_rest hArrives hInside
      refine ⟨_, σ₀, w₁, t₁, rfl, ?_, .loop hValues hEach hFirst, hSecond⟩
      rw [List.cons_append, List.append_assoc]
  | @branch a taken branch rest q₀ w₀ hBranch ih =>
    have hIds := branchIds taken hNodup
    have hInner := hBranch.sublist_ids.subset hInside
    cases hArrives with
    | here =>
      cases hHead
      exact absurd hInner hIds.head_body
    | branch hHolds hArrives =>
      cases eq_of_mem_branches hNodup hInner (hArrives.mem_ids hHead)
      obtain ⟨t₀, σ₀, w₁, t₁, rfl, rfl, hFirst, hSecond⟩ := ih hIds.nodup_body hArrives hInside
      exact ⟨_, σ₀, w₁, t₁, rfl, rfl, .branch hHolds hFirst, hSecond⟩
    | cond hHolds hRun hArrives => exact absurd (hArrives.mem_ids hHead) (hIds.apart hInner)
  | cond hRest ih =>
    have hOuter := hRest.sublist_ids.subset hInside
    cases hArrives with
    | here =>
      cases hHead
      exact absurd hOuter (branchIds true hNodup).head_rest
    | branch hHolds hArrives =>
      exact absurd hOuter ((branchIds _ hNodup).apart (hArrives.mem_ids hHead))
    | cond hHolds hRun hArrives =>
      rcases ih (branchIds true hNodup).nodup_rest hArrives hInside with
        ⟨t₀, σ₀, w₁, t₁, rfl, rfl, hFirst, hSecond⟩
      refine ⟨_, σ₀, w₁, t₁, rfl, ?_, .cond hHolds hRun hFirst, hSecond⟩
      rw [List.cons_append, List.append_assoc]

/- A statement outside all loops is arrived at once. -/
theorem Arrives.once (hNodup : p.ids.Nodup) (hFirst : p.Arrives σ w t q τ)
    (hSecond : p.Arrives σ w t' q τ') (hHead : q.head? = some b)
    (hLoops : loopsOf w = []) : t = t' ∧ τ = τ' := by
  induction hFirst generalizing t' with
  | here p σ =>
    cases hSecond with
    | here => exact ⟨rfl, rfl⟩
    | loop hValues hEach hArrives =>
      cases hHead
      exact absurd (hArrives.mem_ids rfl) (loopIds hNodup).head_rest
    | cond hHolds hRun hArrives =>
      cases hHead
      exact absurd (hArrives.mem_ids rfl) (branchIds true hNodup).head_rest
  | act hStep hRest ih =>
    cases hSecond with
    | act hStep' hRest' =>
      cases hStep.symm.trans hStep'
      obtain ⟨rfl, rfl⟩ := ih (nodup_cons.mp hNodup).2 hRest' hHead hLoops
      exact ⟨rfl, rfl⟩
  | body => cases hLoops
  | loop hValues hEach hRest ih =>
    have hIds := loopIds hNodup
    cases hSecond with
    | here =>
      cases hHead
      exact absurd (hRest.mem_ids rfl) hIds.head_rest
    | body => cases hLoops
    | loop hValues' hEach' hRest' =>
      cases hValues.symm.trans hValues'
      cases hEach.symm.trans hEach'
      obtain ⟨rfl, rfl⟩ := ih hIds.nodup_rest hRest' hHead hLoops
      exact ⟨rfl, rfl⟩
  | @branch a taken branch rest q w t σ τ hHolds hBranch ih =>
    have hIds := branchIds taken hNodup
    cases hSecond with
    | branch hHolds' hBranch' =>
      obtain ⟨rfl, rfl⟩ := ih hIds.nodup_body hBranch' hHead hLoops
      exact ⟨rfl, rfl⟩
    | cond hHolds' hRun' hRest' =>
      exact absurd (hRest'.mem_ids hHead) (hIds.apart (hBranch.mem_ids hHead))
  | cond hHolds hRun hRest ih =>
    cases hSecond with
    | here =>
      cases hHead
      exact absurd (hRest.mem_ids rfl) (branchIds true hNodup).head_rest
    | branch hHolds' hBranch' =>
      exact absurd (hRest.mem_ids hHead) ((branchIds _ hNodup).apart (hBranch'.mem_ids hHead))
    | cond hHolds' hRun' hRest' =>
      cases hHolds.symm.trans hHolds'
      cases hRun.symm.trans hRun'
      obtain ⟨rfl, rfl⟩ := ih (branchIds true hNodup).nodup_rest hRest' hHead hLoops
      exact ⟨rfl, rfl⟩

end Prog

end AffineIR
