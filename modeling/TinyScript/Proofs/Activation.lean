import TinyScript.Proofs.Growth
import TinyScript.Proofs.Outward

/-!
# What a body starts with

A call of a function whose parameters have different names runs the body in a heap that is the old
one with one more scope (`applyWith_entered`). In that scope a parameter is its argument; any other
name means what it means where the function was made, and so does a new value for it.
-/

namespace TinyScript

def Binding.param (p : String × Value) : String × Binding := (p.1, ⟨.mutable, p.2⟩)

namespace Heap

/-- The heap with one more scope, in the scope `outer`. -/
def entered (outer : ScopeId) (bindings : List (String × Binding)) (h : Heap) : Heap :=
  { h with scopes := h.scopes.push ⟨bindings, some outer⟩ }

section
variable {h : Heap} {outer : ScopeId} {bindings : List (String × Binding)}

theorem scopes_entered (i : ScopeId) :
    (h.entered outer bindings).scopes[i]? =
      if i = h.scopes.size then some ⟨bindings, some outer⟩ else h.scopes[i]? :=
  Array.getElem?_push

theorem binding?_entered (name : String) (i : ScopeId) :
    (h.entered outer bindings).binding? name i =
      if i = h.scopes.size then bindings.lookup name else h.binding? name i := by
  rw [binding?, scopes_entered]
  split <;> rfl

theorem withScope_entered {f : Scope → Scope} (hf : ∀ s, (f s).outer = s.outer) :
    (h.entered outer bindings).withScope h.scopes.size f =
      h.entered outer (f ⟨bindings, some outer⟩).bindings := by
  have hscope : f ⟨bindings, some outer⟩ = ⟨(f ⟨bindings, some outer⟩).bindings, some outer⟩ :=
    congrArg (Scope.mk _) (hf _)
  have hmodify : (h.scopes.push ⟨bindings, some outer⟩).modify h.scopes.size f =
      h.scopes.push (f ⟨bindings, some outer⟩) := by grind
  rw [withScope, entered, hmodify, hscope]
  rfl

theorem declare_own (hb : h.binding? name i = none) (b : Binding) :
    h.declare i name b = (.ok (), h.withScope i (·.declare name b)) := by
  rw [declare, hb, if_neg nofun]
  rfl

theorem declare_entered (hnew : bindings.lookup name = none) (b : Binding) :
    (h.entered outer bindings).declare h.scopes.size name b =
      (.ok (), h.entered outer ((name, b) :: bindings)) := by
  have hnew : (h.entered outer bindings).binding? name h.scopes.size = none := by
    rw [binding?_entered, if_pos rfl, hnew]
  have hchange : (h.entered outer bindings).withScope h.scopes.size (·.declare name b) =
      h.entered outer ((name, b) :: bindings) := withScope_entered fun _ => rfl
  rw [declare_own hnew, hchange]

theorem bindParams_entered (ps : List (String × Value)) (hnodup : (ps.map Prod.fst).Nodup)
    (hnew : ∀ p ∈ ps, bindings.lookup p.1 = none) :
    (h.entered outer bindings).bindParams h.scopes.size ps =
      (.ok (), h.entered outer ((ps.map Binding.param).reverse ++ bindings)) := by
  induction ps generalizing bindings with
  | nil => rfl
  | cons p ps ih =>
    obtain ⟨name, v⟩ := p
    obtain ⟨hfirst, hnodup⟩ := List.nodup_cons.mp hnodup
    obtain ⟨hname, hnew⟩ := List.forall_mem_cons.mp hnew
    rw [bindParams, declare_entered hname]
    dsimp only
    rw [ih hnodup, List.map_cons, List.reverse_cons, List.append_assoc]
    · rfl
    · intro q hq
      have hne : q.1 ≠ name := by
        intro heq
        exact hfirst (List.mem_map.mpr ⟨q, hq, heq⟩)
      rw [List.lookup_cons, beq_false_of_ne hne]
      exact hnew q hq

theorem scopes_entered_old {i : ScopeId} {s : Scope} (hs : h.scopes[i]? = some s) :
    (h.entered outer bindings).scopes[i]? = some s := by
  rw [scopes_entered, if_neg (Nat.ne_of_lt (lt_of_scope hs)), hs]

theorem Outward.lt (ho : h.Outward i is) : i < h.scopes.size := by
  cases ho with
  | last hs _ => exact lt_of_scope hs
  | next hs _ _ => exact lt_of_scope hs

theorem Outward.older (ho : h.Outward i is) : (h.entered outer bindings).Outward i is :=
  ho.keep fun _ s hs => ⟨s, scopes_entered_old hs, rfl⟩

theorem Outward.withScope {f : Scope → Scope} (hf : ∀ s, (f s).outer = s.outer)
    (ho : h.Outward i is) : (h.withScope j f).Outward i is := by
  refine ho.keep fun k s hs => ?_
  rw [scopes_withScope, hs]
  split
  · exact ⟨f s, rfl, hf s⟩
  · exact ⟨s, rfl, rfl⟩

theorem Outward.entered (ho : h.Outward outer is) :
    (h.entered outer bindings).Outward h.scopes.size (h.scopes.size :: is) := by
  have hnew : (h.entered outer bindings).scopes[h.scopes.size]? = some ⟨bindings, some outer⟩ := by
    rw [scopes_entered, if_pos rfl]
  exact .next hnew rfl ho.older

theorem Outward.binding?_older (ho : h.Outward i is) (name : String) :
    (h.entered outer bindings).binding? name i = h.binding? name i := by
  rw [binding?_entered, if_neg (Nat.ne_of_lt ho.lt)]

-- ---------------------------------------------------------------------------
-- Names on the way
-- ---------------------------------------------------------------------------

theorem lookup_own (ho : h.Outward i is) (hb : h.binding? name i = some b) :
    h.lookup i name = some b.value := by
  rw [lookup, ho.chain]
  cases ho with
  | last _ _ => rw [List.findSome?_cons, hb, Option.map_some]
  | next _ _ _ => rw [List.findSome?_cons, hb, Option.map_some]

theorem lookup_outer (ho : h.Outward i (i :: is)) (hrest : h.Outward o is)
    (hb : h.binding? name i = none) : h.lookup i name = h.lookup o name := by
  rw [lookup, ho.chain, lookup, hrest.chain, List.findSome?_cons, hb]

theorem assign_own (ho : h.Outward i is) (hb : h.binding? name i = some ⟨.mutable, w⟩) (v : Value) :
    h.assign i name v = (.ok (), h.withScope i (·.assign name v)) := by
  rw [assign, ho.chain]
  cases ho with
  | last _ _ => simp only [List.find?_cons, hb, Option.isSome_some, Option.map_some, withScope]
  | next _ _ _ => simp only [List.find?_cons, hb, Option.isSome_some, Option.map_some, withScope]

theorem assign_outer (ho : h.Outward i (i :: is)) (hrest : h.Outward o is)
    (hb : h.binding? name i = none) (v : Value) : h.assign i name v = h.assign o name v := by
  simp only [assign, ho.chain, hrest.chain, List.find?_cons, hb, Option.isSome_none]

end

end Heap

theorem applyWith_entered {body : Block → ScopeId → Heap → Run} {h : Heap}
    (hf : h.object? f = some (.function params code outer)) (hlen : params.length = args.length)
    (hnodup : params.Nodup) :
    applyWith body f args h = body code h.scopes.size
      (h.entered outer ((params.zip args).map Binding.param).reverse) := by
  have hnames : ((params.zip args).map Prod.fst).Nodup := by
    rwa [List.map_fst_zip (Nat.le_of_eq hlen)]
  have hbind : (h.entered outer []).bindParams h.scopes.size (params.zip args) =
      (.ok (), h.entered outer (((params.zip args).map Binding.param).reverse ++ [])) :=
    Heap.bindParams_entered _ hnames fun _ _ => rfl
  rw [List.append_nil] at hbind
  rw [applyWith_function hf, if_pos hlen]
  exact congrArg (afterChange · _) hbind

-- ---------------------------------------------------------------------------
-- Small trees
-- ---------------------------------------------------------------------------

section
variable {call : Caller} {scope : ScopeId} {h : Heap}

theorem Expr.eval_name (hv : h.lookup scope name = some v) :
    (Expr.ident name).eval call scope h = (v, h) := by
  rw [Expr.eval, hv]

theorem andThen_value (hv : v.isInterrupt = false) (next : Value → Heap → Run) :
    andThen (v, h) next = next v h := by
  simp only [andThen, hv, Bool.false_eq_true, if_false]

theorem andThen_end (r : Run) : andThen r (fun v h => (v, h)) = r := by
  simp only [andThen]
  split <;> rfl

theorem Block.eval_expr (e : Expr) (last : Value) :
    Block.eval call scope [.expr e] last h = e.eval call scope h := by
  rw [Block.eval, Stmt.eval]
  exact andThen_end _

end

end TinyScript
