import LazyTensor.Proofs.Graph.Term

/-!
# What construction gives

A node is described by the type and the value that it has in every environment. Constructors turn
descriptions of their operands into a description of the node they add, and descriptions stay true as
the graph grows.
-/

namespace LazyTensor

namespace Graph

variable {S : Setting} {A : Binder → Prop} {g g' : Graph} {r a b : Ref} {t : DType}

/-- A node heads an expression of type `t` that has the value `d` wherever `d` has one. -/
structure Result (S : Setting) (A : Binder → Prop) (g : Graph) (r : Ref) (t : DType)
    (d : Env → Option Value) : Prop where
  term : g.Term S A r
  dtype : g.dtype r = t
  value : ∀ env v, d env = some v → g.value env r = some v

variable {d d' e : Env → Option Value} {n : Instr}

theorem Term.result (h : g.Term S A r) : g.Result S A r (g.dtype r) (g.value · r) :=
  ⟨h, rfl, fun _ _ => id⟩

theorem Result.mono (h : g.Result S A r t d) (hd : ∀ env v, d' env = some v → d env = some v) :
    g.Result S A r t d' :=
  ⟨h.term, h.dtype, fun env v hv => h.value env v (hd env v hv)⟩

theorem Result.grows (h : g.Result S A r t d) (hg : g.WellFormed) (hgrows : g.Grows g') :
    g'.Result S A r t d := by
  have hlt := h.term.lt_size hg
  refine ⟨hgrows.term hg h.term, ?_, fun env v hv => ?_⟩
  · rw [Graph.dtype, hgrows.get_eq hg hlt, ← Graph.dtype, h.dtype]
  · rw [hgrows.value_eq hg h.term]
    exact h.value env v hv

theorem Result.resolve (h : g.Result S A r t d) (hg : g.WellFormed) :
    g.Result S A (g.resolve r) t d := by
  have hget := get_resolve hg r
  refine ⟨?_, ?_, fun env v hv => ?_⟩
  · refine (mirrors_of_get hget fun _ _ => rfl).term h.term (fun b hb => ?_)
      (fun s hs => h.term.operand hs) (fun l hl s hs => h.term.bound hl hs)
      (fun s hs => h.term.source hs)
    rw [hg.resolve_resolve]
    exact (h.term.placed.binder b hb).1
  · rw [Graph.dtype, hget, ← Graph.dtype, h.dtype]
  · rw [value_resolve hg]
    exact h.value env v hv

theorem Holds.op_eq (h : g.Holds r n) : g.op r = n.op := by rw [op, h.get_eq]

theorem Holds.dtype_eq (h : g.Holds r n) : g.dtype r = n.dtype := by
  rw [dtype, h.get_eq]

theorem term_of_operands (htyped : g.Typed r) (hplaced : g.Placed S A r)
    (hscopes : (g.op r).scopes = []) (hsources : (g.op r).sources = (g.op r).operands)
    (h : ∀ s ∈ (g.op r).operands, g.Term S A s) : g.Term S A r := by
  refine .node htyped hplaced h (by simp [hscopes]) (fun s hs => ?_)
  exact (h s (hsources ▸ hs)).mono fun _ _ => trivial

theorem Result.int (h : g.Result S A r t d) : t.isInt = true → S.ints t := h.dtype ▸ h.term.placed.int

theorem placed_of_operation {o : Op} (hop : g.op r = o)
    (ho : o.kind ∈ [.const, .cast, .unary, .binary, .ternary])
    (hint : (g.dtype r).isInt = true → S.ints (g.dtype r)) : g.Placed S A r := by
  subst hop
  refine ⟨fun b hb => ?_, hint, ?_⟩
  · cases hop : g.op r <;> simp [hop, Op.kind, Op.binder?] at ho hb
  · cases hop : g.op r <;> simp [hop, Op.kind] at ho ⊢

theorem result_const {v : Value} (h : g.Holds r ⟨.const v, t⟩) (ht : t.IsPlain)
    (hint : t.isInt = true → S.ints t) (hv : v.HasType t) : g.Result S A r t fun _ => some v := by
  have hop : g.op r = .const v := h.op_eq
  have hdtype : g.dtype r = t := h.dtype_eq
  refine ⟨term_of_operands ?_ ?_ ?_ ?_ ?_, hdtype, fun env w hw => ?_⟩
  · rw [Typed, hop, hdtype]
    exact ⟨ht, hv⟩
  · exact placed_of_operation hop (by simp [Op.kind]) (by rwa [hdtype])
  · rw [hop]; rfl
  · rw [hop]; rfl
  · rw [hop]; rintro _ ⟨⟩
  · rw [← hw]
    exact value_const hop

theorem result_binary {op : BinaryOp} (ha : g.Result S A a t d) (hb : g.Result S A b t e)
    (h : g.Holds r ⟨.binary op a b, op.resultType t⟩) (ht : t.IsPlain)
    (haccepts : op.accepts t = true) :
    g.Result S A r (op.resultType t) fun env =>
      (d env).bind fun x => (e env).bind (op.eval (op.resultType t) x) := by
  have hop : g.op r = .binary op a b := h.op_eq
  have hdtype : g.dtype r = op.resultType t := h.dtype_eq
  refine ⟨term_of_operands ?_ ?_ ?_ ?_ ?_, hdtype, fun env w hw => ?_⟩
  · rw [Typed, hop, hdtype]
    simp only [ha.dtype, hb.dtype]
    exact ⟨ht, trivial, haccepts, trivial⟩
  · refine placed_of_operation hop (by simp [Op.kind]) fun hint => ?_
    rw [hdtype, BinaryOp.resultType] at hint ⊢
    split at hint
    case isTrue => cases hint
    case isFalse hcmp => rw [if_neg hcmp]; exact ha.int hint
  · rw [hop]; rfl
  · rw [hop]; rfl
  · rw [hop]
    simp only [Op.operands, Op.sources, List.forall_mem_cons]
    exact ⟨ha.term, hb.term, by simp⟩
  · simp only [Option.bind_eq_some_iff] at hw
    obtain ⟨x, hx, y, hy, hw⟩ := hw
    exact (value_binary hop).mpr ⟨x, y, ha.value env x hx, hb.value env y hy, by rwa [hdtype]⟩

end Graph

end LazyTensor
