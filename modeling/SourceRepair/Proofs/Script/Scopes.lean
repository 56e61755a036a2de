import SourceRepair.Script.Scope

/-!
# Names in scope

A name is bound at a place when a scope that covers the place declares it. In trees that stand in
order, the scopes that cover a place are those of the trees around it, so what binds a name in a
part of a tree is either the scope of the tree or something in the part.
-/

/-!
## Where trees stand in the text

The trees that a reader makes stand in the text as they stand in the program: what is inside a tree
lies inside its span, and what comes later in a tree comes later in the text. `InOrder` says so of
trees one after the other. Only decorators and the parameter of a `catch` may stand before the span
of the tree that holds them, and a key that is not computed may be the value as well.
-/

namespace SourceRepair.Script

namespace Tree

/-- A key that is not computed. -/
def isKey : Tree → Bool
  | name _ _ | privateName _ _ | string _ _ | literal _ _ => true
  | _ => false

/-- The key of a member, unless it is computed. -/
def plainKey? : Tree → Option Tree
  | property key false _ _ _ _ | patternProperty key false _ _ | method key false _ _ _
  | field key false _ _ _ => some key
  | _ => none

/-- The trees that may stand before the span of the tree. -/
def front : Tree → List Tree
  | classDef _ decorators _ _ _ => decorators
  | classDecl definition => [definition]
  | tryPart _ caught _ _ => caught.toList
  | _ => []

/-- The trees that stand in the span of the tree, from left to right. -/
def parts : Tree → List Tree
  | property key computed value _ cover _ =>
    (if computed then [key] else []) ++ value :: cover.toList
  | patternProperty key computed value _ => (if computed then [key] else []) ++ [value]
  | method key computed decorators f _ =>
    decorators ++ (if computed then [key] else []) ++ [f]
  | field key computed decorators value _ =>
    decorators ++ (if computed then [key] else []) ++ value.toList
  | classDef _ _ superClass members _ => superClass.toList ++ members
  | classDecl _ => []
  | tryPart _ _ statements _ => statements
  | t => t.children

/-- What holds of a tree by itself: names are not empty, operators and parentheses take up room, and
keys and defaults are of their kinds. -/
def Sound : Tree → Prop
  | identifier _ s => s.start < s.stop
  | unary _ argument s => s.start < argument.span.start
  | paren inner s => s.start < inner.span.start
  | property key computed _ shorthand cover _ =>
    (computed = false → key.isKey) ∧ (shorthand → computed = false) ∧
      ∀ default ∈ cover, default.hoistedNames default.size = []
  | patternProperty key computed _ _ => computed = false → key.isKey
  | method key computed _ _ _ => computed = false → key.isKey
  | field key computed _ _ _ => computed = false → key.isKey
  | _ => True

end Tree

/-- The trees stand one after the other between two offsets, each with its own parts in order. -/
inductive InOrder : Nat → Nat → List Tree → Prop
  | nil {lo hi : Nat} (le : lo ≤ hi) : InOrder lo hi []
  | cons {lo mid stop hi : Nat} {t : Tree} {ts : List Tree} (sound : t.Sound)
    (starts : lo ≤ t.span.start) (front : InOrder lo mid t.front)
    (parts : InOrder (max mid t.span.start) t.span.stop t.parts) (stops : t.span.stop ≤ stop)
    (rest : InOrder stop hi ts) : InOrder lo hi (t :: ts)

/-- The statements of the program stand in order in its span. -/
def Program.Laid (p : Program) : Prop := InOrder p.span.start p.span.stop p.body

namespace InOrder

variable {lo mid hi : Nat} {t : Tree} {ts us : List Tree}

theorem le (order : InOrder lo hi ts) : lo ≤ hi := by
  induction order with
  | nil le => exact le
  | cons _ starts _ _ stops _ _ parts rest => omega

theorem mono (order : InOrder lo hi ts) {lo' hi' : Nat} (lower : lo' ≤ lo) (upper : hi ≤ hi') :
    InOrder lo' hi' ts := by
  induction order generalizing lo' hi' with
  | nil le => exact .nil (by omega)
  | cons sound starts _ parts stops _ front _ rest =>
    exact .cons sound (by omega) (front lower Nat.le.refl) parts stops (rest Nat.le.refl upper)

theorem append (first : InOrder lo mid ts) (second : InOrder mid hi us) :
    InOrder lo hi (ts ++ us) := by
  induction first with
  | nil le => exact second.mono le Nat.le.refl
  | cons sound starts front parts stops _ _ _ rest =>
    exact .cons sound starts front parts stops (rest second)

theorem split (order : InOrder lo hi (ts ++ us)) :
    ∃ mid, InOrder lo mid ts ∧ InOrder mid hi us := by
  induction ts generalizing lo with
  | nil => exact ⟨lo, .nil Nat.le.refl, order⟩
  | cons t ts ih =>
    cases order with
    | cons sound starts front parts stops rest =>
      obtain ⟨mid, first, second⟩ := ih rest
      exact ⟨mid, .cons sound starts front parts stops first, second⟩

theorem of_cons (order : InOrder lo hi (t :: ts)) :
    ∃ mid, InOrder lo mid [t] ∧ InOrder mid hi ts :=
  split (show InOrder lo hi ([t] ++ ts) from order)

theorem of_mem (order : InOrder lo hi ts) (member : t ∈ ts) :
    ∃ a b, lo ≤ a ∧ b ≤ hi ∧ InOrder a b [t] := by
  obtain ⟨before, after, rfl⟩ := List.append_of_mem member
  obtain ⟨a, first, rest⟩ := order.split
  obtain ⟨b, itself, last⟩ := rest.of_cons
  exact ⟨a, b, first.le, last.le, itself⟩

theorem sound (order : InOrder lo hi [t]) : t.Sound := by
  cases order with
  | cons sound => exact sound

theorem starts (order : InOrder lo hi [t]) : lo ≤ t.span.start := by
  cases order with
  | cons _ starts => exact starts

theorem stops (order : InOrder lo hi [t]) : t.span.stop ≤ hi := by
  cases order with
  | cons _ _ _ _ stops rest => exact Nat.le_trans stops rest.le

theorem parts (order : InOrder lo hi [t]) : InOrder t.span.start t.span.stop t.parts := by
  cases order with
  | cons _ _ _ parts => exact parts.mono (Nat.le_max_right _ _) Nat.le.refl

theorem start_le_stop (order : InOrder lo hi [t]) : t.span.start ≤ t.span.stop := order.parts.le

/-- Trees with nothing in front of them stand in their spans. -/
theorem tight (order : InOrder lo hi [t]) (bare : t.front = []) :
    InOrder t.span.start t.span.stop [t] := by
  cases order with
  | cons sound _ _ parts =>
    have front : InOrder t.span.start t.span.start t.front := by
      rw [bare]
      exact .nil Nat.le.refl
    exact .cons sound Nat.le.refl front (parts.mono (by omega) Nat.le.refl) Nat.le.refl
      (.nil Nat.le.refl)

end InOrder

end SourceRepair.Script

/-! ## Scopes and what binds a name -/

namespace SourceRepair.Script

/-! ### Sizes -/

theorem sizeList_append (ts us : List Tree) : sizeList (ts ++ us) = sizeList ts + sizeList us := by
  induction ts with
  | nil => exact (Nat.zero_add _).symm
  | cons t ts ih =>
    change t.size + sizeList (ts ++ us) = t.size + sizeList ts + sizeList us
    rw [ih, Nat.add_assoc]

theorem sizeList_toList (o : Option Tree) : sizeList o.toList = sizeOption o := by
  cases o <;> rfl

theorem sizeList_singleton (t : Tree) : sizeList [t] = t.size := rfl

theorem sizeList_cons (t : Tree) (ts : List Tree) : sizeList (t :: ts) = t.size + sizeList ts := rfl

theorem size_eq (t : Tree) : t.size = 1 + sizeList t.children := by
  cases t with
  | conditional a b c | forIn a b c | forOf a b c =>
    change 1 + a.size + b.size + c.size = 1 + (a.size + (b.size + c.size))
    omega
  | arrow _ ts t | param ts t =>
    change 1 + t.size + sizeList ts = 1 + sizeList (ts ++ [t])
    rw [sizeList_append, sizeList_singleton]
    omega
  | function _ ts o =>
    change 1 + sizeList ts + sizeOption o = 1 + sizeList (ts ++ o.toList)
    rw [sizeList_append, sizeList_toList]
    omega
  | switchCase o ts | tryPart _ o ts =>
    change 1 + sizeList ts + sizeOption o = 1 + sizeList (o.toList ++ ts)
    rw [sizeList_append, sizeList_toList]
    omega
  | classDef _ ds o ms =>
    change 1 + sizeList ds + sizeOption o + sizeList ms = 1 + sizeList (ds ++ o.toList ++ ms)
    rw [sizeList_append, sizeList_append, sizeList_toList]
    omega
  | importCall t o | declarator t o =>
    change 1 + t.size + sizeOption o = 1 + (t.size + sizeList o.toList)
    rw [sizeList_toList]
    omega
  | yield o | returns o | exportNamed o | enumMember _ o | jsxAttribute _ o | jsxContainer o =>
    exact congrArg (1 + ·) (sizeList_toList o).symm
  | property k _ v _ o =>
    change 1 + k.size + v.size + sizeOption o = 1 + (k.size + (v.size + sizeList o.toList))
    rw [sizeList_toList]
    omega
  | method k _ ds f =>
    change 1 + k.size + sizeList ds + f.size = 1 + sizeList (ds ++ [k, f])
    rw [sizeList_append, sizeList_cons, sizeList_singleton]
    omega
  | field k _ ds o =>
    change 1 + k.size + sizeList ds + sizeOption o = 1 + sizeList (ds ++ k :: o.toList)
    rw [sizeList_append, sizeList_cons, sizeList_toList]
    omega
  | ifThen a b o =>
    change 1 + a.size + b.size + sizeOption o = 1 + (a.size + (b.size + sizeList o.toList))
    rw [sizeList_toList]
    omega
  | forLoop o p q t =>
    change 1 + sizeOption o + sizeOption p + sizeOption q + t.size =
      1 + sizeList (o.toList ++ p.toList ++ q.toList ++ [t])
    rw [sizeList_append, sizeList_append, sizeList_append, sizeList_toList, sizeList_toList,
      sizeList_toList, sizeList_singleton]
    omega
  | jsxElement _ as _ cs =>
    change 1 + sizeList as + sizeList cs = 1 + sizeList (as ++ cs)
    rw [sizeList_append, Nat.add_assoc]
  | _ => first | rfl | exact Nat.add_assoc _ _ _

theorem size_le_sizeList {t : Tree} {ts : List Tree} (member : t ∈ ts) : t.size ≤ sizeList ts := by
  obtain ⟨before, after, rfl⟩ := List.append_of_mem member
  rw [sizeList_append, sizeList_cons]
  omega

theorem size_lt_of_child {t u : Tree} (child : u ∈ t.children) : u.size < t.size := by
  have := size_le_sizeList child
  rw [size_eq t]
  omega

/-- What holds of a tree when it holds of all its children holds of every tree. -/
theorem Tree.rec_children {motive : Tree → Prop}
    (step : ∀ t : Tree, (∀ u ∈ t.children, motive u) → motive t) (t : Tree) : motive t := by
  induction bound : t.size using Nat.strongRecOn generalizing t with
  | ind n ih =>
    subst bound
    exact step t fun u child => ih u.size (size_lt_of_child child) u rfl

/-! ### Scopes in trees -/

/-- The tree, or one inside it, opens the scope. -/
inductive Opens : Tree → Scope → Prop
  | own {t : Tree} {s : Scope} (opened : t.scope? = some s) : Opens t s
  | deeper {t u : Tree} {s : Scope} (child : u ∈ t.children) (inside : Opens u s) : Opens t s

theorem opens_of_mem_scopes {fuel : Nat} {t : Tree} {s : Scope} (member : s ∈ t.scopes fuel) :
    Opens t s := by
  induction fuel generalizing t with
  | zero => cases member
  | succ fuel ih =>
    rw [Tree.scopes, List.mem_append, List.mem_flatMap] at member
    rcases member with own | ⟨u, child, inside⟩
    · exact .own (Option.mem_toList.mp own)
    · exact .deeper child (ih inside)

theorem Opens.mem_scopes {t : Tree} {s : Scope} (opens : Opens t s) {fuel : Nat}
    (enough : t.size ≤ fuel) : s ∈ t.scopes fuel := by
  induction opens generalizing fuel with
  | own opened =>
    rw [size_eq] at enough
    obtain ⟨fuel, rfl⟩ : ∃ n, fuel = n + 1 := ⟨fuel - 1, by omega⟩
    rw [Tree.scopes, List.mem_append]
    exact .inl (Option.mem_toList.mpr opened)
  | deeper child _ ih =>
    have smaller := size_lt_of_child child
    obtain ⟨fuel, rfl⟩ : ∃ n, fuel = n + 1 := ⟨fuel - 1, by omega⟩
    rw [Tree.scopes, List.mem_append, List.mem_flatMap]
    exact .inr ⟨_, child, ih (by omega)⟩

/-- A scope that covers a span and that one of the trees opens declares a name. -/
def Binds (ts : List Tree) (name : String) (place : Span) : Prop :=
  ∃ t ∈ ts, ∃ s, Opens t s ∧ s.span.covers place ∧ name ∈ s.names

variable {lo hi : Nat} {t u : Tree} {ts : List Tree} {name : String} {place : Span}

theorem isBound_iff {p : Program} :
    isBound p.scopes name place ↔
      (p.span.covers place ∧ name ∈ Tree.bodyNames p.body) ∨ Binds p.body name place := by
  simp only [isBound, Program.scopes, List.any_cons, Bool.or_eq_true, Bool.and_eq_true,
    List.contains_iff_mem, List.any_flatMap, List.any_eq_true, Binds]
  refine or_congr Iff.rfl ⟨?_, ?_⟩
  · rintro ⟨t, member, s, opened, covers, declared⟩
    exact ⟨t, member, s, opens_of_mem_scopes opened, covers, declared⟩
  · rintro ⟨t, member, s, opens, covers, declared⟩
    exact ⟨t, member, s, opens.mem_scopes Nat.le.refl, covers, declared⟩

theorem mem_children_iff :
    u ∈ t.children ↔ u ∈ t.plainKey? ∨ u ∈ t.front ∨ u ∈ t.parts := by
  cases t with
  | property key computed | patternProperty key computed =>
    cases computed <;> simp [Tree.children, Tree.plainKey?, Tree.front, Tree.parts, eq_comm]
  | method key computed | field key computed =>
    cases computed <;>
      simp [Tree.children, Tree.plainKey?, Tree.front, Tree.parts, eq_comm, or_left_comm]
  | classDef | classDecl | tryPart =>
    simp [Tree.children, Tree.plainKey?, Tree.front, Tree.parts]
  | _ =>
    constructor
    · exact fun member => .inr (.inr member)
    · rintro (key | front | member)
      · cases key
      · cases front
      · exact member

theorem not_opens_of_isKey {s : Scope} (key : t.isKey) : ¬ Opens t s := by
  intro opens
  cases opens with
  | own opened =>
    cases t with
    | name | privateName | string | literal => cases opened
    | _ => cases key
  | deeper child =>
    cases t with
    | name | privateName | string | literal => cases child
    | _ => cases key

theorem isKey_of_plainKey (order : InOrder lo hi [t]) (key : u ∈ t.plainKey?) : u.isKey := by
  have sound := order.sound
  cases t with
  | property k computed =>
    cases computed with
    | true => cases key
    | false =>
      cases key
      exact sound.1 rfl
  | patternProperty k computed | method k computed | field k computed =>
    cases computed with
    | true => cases key
    | false =>
      cases key
      exact sound rfl
  | _ => cases key

def Tree.isSwitch : Tree → Bool
  | .switch _ _ _ => true
  | _ => false

theorem span_of_scope {s : Scope} (opened : t.scope? = some s) (plain : t.isSwitch = false) :
    s.span = t.span := by
  cases t with
  | switch => cases plain
  | forLoop init => cases init <;> cases opened <;> rfl
  | _ => first | cases opened; rfl | cases opened

theorem covers_iff {a b : Span} : a.covers b ↔ a.start ≤ b.start ∧ b.stop ≤ a.stop := by
  rw [Span.covers, Bool.and_eq_true, decide_eq_true_iff, decide_eq_true_iff]

theorem rangeOf_eq (order : InOrder lo hi ts) (member : u ∈ ts) :
    ∃ range, Tree.rangeOf ts = some range ∧ range.covers u.span ∧ lo ≤ range.start ∧
      range.stop ≤ hi := by
  obtain ⟨first, rest, front⟩ := List.exists_cons_of_ne_nil (List.ne_nil_of_mem member)
  obtain ⟨init, last, back⟩ := (List.eq_nil_or_concat ts).resolve_left (List.ne_nil_of_mem member)
  have starts : first.span.start ≤ u.span.start ∧ lo ≤ first.span.start := by
    subst front
    obtain ⟨mid, itself, later⟩ := order.of_cons
    have := itself.stops
    have := itself.start_le_stop
    refine ⟨?_, itself.starts⟩
    rcases List.mem_cons.mp member with rfl | member
    · exact Nat.le.refl
    · obtain ⟨a, b, above, -, order⟩ := later.of_mem member
      have := order.starts
      omega
  have stops : u.span.stop ≤ last.span.stop ∧ last.span.stop ≤ hi := by
    rw [List.concat_eq_append] at back
    rw [back] at order member
    obtain ⟨mid, earlier, itself⟩ := order.split
    have := itself.starts
    have := itself.start_le_stop
    refine ⟨?_, itself.stops⟩
    rcases List.mem_append.mp member with member | member
    · obtain ⟨a, b, -, below, order⟩ := earlier.of_mem member
      have := order.stops
      omega
    · exact Nat.le_of_eq (congrArg (·.span.stop) (List.mem_singleton.mp member))
  refine ⟨⟨first.span.start, last.span.stop⟩, ?_, covers_iff.mpr ⟨starts.1, stops.1⟩, starts.2,
    stops.2⟩
  have head : ts.head? = some first := by rw [front]; rfl
  have final : ts.getLast? = some last := by rw [back, List.concat_eq_append]; simp
  rw [Tree.rangeOf, head, final]
  rfl

theorem span_of_switch {s : Scope} {value : Tree} {cases : List Tree} {span range : Span}
    (opened : (Tree.switch value cases span).scope? = some s)
    (found : Tree.rangeOf cases = some range) : s.span = range := by
  simp only [Tree.scope?, found, Option.map_some, Option.some.injEq] at opened
  rw [← opened]

theorem scope_within {s : Scope} (order : InOrder lo hi [t]) (opened : t.scope? = some s) :
    t.span.start ≤ s.span.start ∧ s.span.stop ≤ t.span.stop := by
  cases switch : t.isSwitch with
  | false =>
    rw [span_of_scope opened switch]
    exact ⟨Nat.le.refl, Nat.le.refl⟩
  | true =>
    cases t with
    | switch value cases span =>
      obtain ⟨mid, first, rest⟩ := order.parts.of_cons
      cases cases with
      | nil => cases opened
      | cons c cs =>
        obtain ⟨range, found, -, starts, stops⟩ := rangeOf_eq rest List.mem_cons_self
        rw [span_of_switch opened found]
        exact ⟨Nat.le_trans first.le starts, stops⟩
    | _ => cases switch

theorem InOrder.opens_within {s : Scope} (order : InOrder lo hi ts) (member : t ∈ ts)
    (opens : Opens t s) : lo ≤ s.span.start ∧ s.span.stop ≤ hi := by
  induction order generalizing t with
  | nil => cases member
  | @cons lo mid stop hi t' ts sound starts front parts stops rest inFront inParts inRest =>
    rcases List.mem_cons.mp member with rfl | member
    · have order : InOrder lo stop [t] := .cons sound starts front parts stops (.nil Nat.le.refl)
      have := front.le
      have := parts.le
      have := rest.le
      cases opens with
      | own opened =>
        have := scope_within order opened
        omega
      | deeper child inside =>
        rcases mem_children_iff.mp child with key | child | child
        · exact absurd inside (not_opens_of_isKey (isKey_of_plainKey order key))
        · have := inFront child inside
          omega
        · have := inParts child inside
          omega
    · have := inRest member opens
      have := parts.le
      omega

theorem InOrder.binds_within (order : InOrder lo hi ts) (binds : Binds ts name place) :
    lo ≤ place.start ∧ place.stop ≤ hi := by
  obtain ⟨t, member, s, opens, covers, -⟩ := binds
  have := order.opens_within member opens
  have := covers_iff.mp covers
  omega

theorem binds_iff (order : InOrder lo hi [t]) :
    Binds [t] name place ↔
      (∃ s, t.scope? = some s ∧ s.span.covers place ∧ name ∈ s.names) ∨
        Binds t.front name place ∨ Binds t.parts name place := by
  constructor
  · rintro ⟨u, member, s, opens, covers, declared⟩
    cases List.mem_singleton.mp member
    cases opens with
    | own opened => exact .inl ⟨s, opened, covers, declared⟩
    | deeper child inside =>
      rcases mem_children_iff.mp child with key | child | child
      · exact absurd inside (not_opens_of_isKey (isKey_of_plainKey order key))
      · exact .inr (.inl ⟨_, child, s, inside, covers, declared⟩)
      · exact .inr (.inr ⟨_, child, s, inside, covers, declared⟩)
  · rintro (⟨s, opened, covers, declared⟩ | ⟨u, child, s, opens, covers, declared⟩ |
      ⟨u, child, s, opens, covers, declared⟩)
    · exact ⟨t, List.mem_singleton_self t, s, .own opened, covers, declared⟩
    · have among := mem_children_iff.mpr (.inr (.inl child))
      exact ⟨t, List.mem_singleton_self t, s, .deeper among opens, covers, declared⟩
    · have among := mem_children_iff.mpr (.inr (.inr child))
      exact ⟨t, List.mem_singleton_self t, s, .deeper among opens, covers, declared⟩

theorem InOrder.binds_iff_of_mem (order : InOrder lo hi ts) (member : u ∈ ts)
    (wide : place.start < place.stop) (covers : u.span.covers place) :
    Binds ts name place ↔ Binds [u] name place := by
  constructor
  · rintro ⟨v, among, binds⟩
    obtain ⟨before, after, rfl⟩ := List.append_of_mem member
    obtain ⟨a, first, rest⟩ := order.split
    obtain ⟨b, itself, last⟩ := rest.of_cons
    have := itself.starts
    have := itself.stops
    have := covers_iff.mp covers
    rcases List.mem_append.mp among with earlier | among
    · have := first.binds_within ⟨v, earlier, binds⟩
      omega
    · rcases List.mem_cons.mp among with rfl | later
      · exact ⟨v, List.mem_singleton_self v, binds⟩
      · have := last.binds_within ⟨v, later, binds⟩
        omega
  · rintro ⟨v, among, binds⟩
    cases List.mem_singleton.mp among
    exact ⟨u, member, binds⟩

/-- The names of the scope that the tree opens itself. -/
def Tree.scopeNames (t : Tree) : List String := (t.scope?.map Scope.names).getD []

/-- A tree lies inside another one, and these names are declared in the scopes between them, the
scope of the outer tree included. -/
inductive Reach : Tree → List String → Tree → Prop
  | here {t : Tree} : Reach t [] t
  | definition {t u : Tree} {names : List String} (inside : Reach t names u) :
    Reach (.classDecl t) names u
  | part {t v u : Tree} {names : List String} (plain : t.isSwitch = false) (part : v ∈ t.parts)
    (inside : Reach v names u) : Reach t (t.scopeNames ++ names) u
  | subject {value u : Tree} {cases : List Tree} {span : Span} {names : List String}
    (inside : Reach value names u) : Reach (.switch value cases span) names u
  | branch {value v u : Tree} {cases : List Tree} {span : Span} {names : List String}
    (part : v ∈ cases) (inside : Reach v names u) :
    Reach (.switch value cases span) ((Tree.switch value cases span).scopeNames ++ names) u

theorem mem_scopeNames : name ∈ t.scopeNames ↔ ∃ s, t.scope? = some s ∧ name ∈ s.names := by
  unfold Tree.scopeNames
  cases t.scope? <;> simp

theorem binds_iff_of_part (order : InOrder lo hi [t]) (part : u ∈ t.parts)
    (wide : place.start < place.stop) (covers : u.span.covers place) :
    Binds [t] name place ↔
      (∃ s, t.scope? = some s ∧ s.span.covers place ∧ name ∈ s.names) ∨ Binds [u] name place := by
  rw [binds_iff order]
  refine or_congr Iff.rfl ?_
  rw [order.parts.binds_iff_of_mem part wide covers]
  refine or_iff_right ?_
  intro front
  cases order with
  | cons sound starts inFront inParts stops rest =>
    obtain ⟨a, b, above, -, itself⟩ := inParts.of_mem part
    have := inFront.binds_within front
    have := itself.starts
    have := covers_iff.mp covers
    omega

theorem covers_of_part (order : InOrder lo hi [t]) (part : u ∈ t.parts)
    (covers : u.span.covers place) : t.span.covers place := by
  obtain ⟨a, b, above, below, itself⟩ := order.parts.of_mem part
  have := itself.starts
  have := itself.stops
  have := covers_iff.mp covers
  exact covers_iff.mpr ⟨by omega, by omega⟩

theorem Reach.binds_iff {names : List String} (reach : Reach t names u) (order : InOrder lo hi [t])
    (wide : place.start < place.stop) (covers : u.span.covers place) :
    t.span.covers place ∧ (Binds [t] name place ↔ name ∈ names ∨ Binds [u] name place) := by
  induction reach generalizing lo hi with
  | here => exact ⟨covers, by simp⟩
  | @definition t u names inside ih =>
    have front : ∃ mid, InOrder lo mid [t] := by
      cases order with
      | cons _ _ front => exact ⟨_, front⟩
    obtain ⟨mid, front⟩ := front
    obtain ⟨outer, iff⟩ := ih front covers
    refine ⟨outer, ?_⟩
    rw [Script.binds_iff order, ← iff]
    constructor
    · rintro (⟨s, opened, -⟩ | binds | ⟨v, member, -⟩)
      · cases opened
      · exact binds
      · cases member
    · exact fun binds => .inr (.inl binds)
  | part plain part inside ih =>
    obtain ⟨a, b, -, -, itself⟩ := order.parts.of_mem part
    obtain ⟨outer, iff⟩ := ih itself covers
    have whole := covers_of_part order part outer
    refine ⟨whole, ?_⟩
    rw [binds_iff_of_part order part wide outer, iff, List.mem_append, or_assoc, mem_scopeNames]
    refine or_congr (exists_congr fun s => and_congr_right fun opened => ?_) Iff.rfl
    rw [span_of_scope opened plain]
    exact and_iff_right whole
  | @subject value u cases span names inside ih =>
    obtain ⟨mid, first, rest⟩ := order.parts.of_cons
    obtain ⟨outer, iff⟩ := ih first covers
    have part : value ∈ (Tree.switch value cases span).parts := List.mem_cons_self
    refine ⟨covers_of_part order part outer, ?_⟩
    rw [binds_iff_of_part order part wide outer, iff]
    refine or_iff_right ?_
    rintro ⟨s, opened, covered, -⟩
    cases cases with
    | nil => cases opened
    | cons c cs =>
      obtain ⟨range, found, -, starts, -⟩ := rangeOf_eq rest List.mem_cons_self
      have := first.stops
      have := covers_iff.mp outer
      rw [span_of_switch opened found] at covered
      have := covers_iff.mp covered
      omega
  | @branch value v u cases span names part inside ih =>
    obtain ⟨mid, first, rest⟩ := order.parts.of_cons
    obtain ⟨a, b, -, -, itself⟩ := rest.of_mem part
    obtain ⟨outer, iff⟩ := ih itself covers
    have among : v ∈ (Tree.switch value cases span).parts := List.mem_cons_of_mem _ part
    refine ⟨covers_of_part order among outer, ?_⟩
    rw [binds_iff_of_part order among wide outer, iff, List.mem_append, or_assoc, mem_scopeNames]
    refine or_congr (exists_congr fun s => and_congr_right fun opened => ?_) Iff.rfl
    obtain ⟨range, found, covered, -⟩ := rangeOf_eq rest part
    rw [span_of_switch opened found]
    have := covers_iff.mp covered
    have := covers_iff.mp outer
    exact and_iff_right (covers_iff.mpr ⟨by omega, by omega⟩)

end SourceRepair.Script
