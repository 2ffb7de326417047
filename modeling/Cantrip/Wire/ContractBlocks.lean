import Cantrip.Wire.Canonical
import Cantrip.Wire.Contracts

/-!
# A graph behind another (`wire/contract_blocks.rs`)

A run looks at nodes only at the references of the node that it is at, and at the node itself only in fields that are
no references. So it does not change when the nodes move and every reference moves with them (`run_moved`). `append` moves the
nodes of the block by the number of nodes before it, and leaves those of the base where they are.
-/

namespace Cantrip.Wire.Contracts

open Lib List

variable {F : Numbers} {D : Type}

/-! ## Two runs with the same result -/

/-- The second run does what the first one does, unless that panics at a reference to a node that is not there, which a closed graph
does not have. -/
def Same {α : Type} (closed : Prop) (x y : Result F α) : Prop := y = x ∨ (¬closed ∧ x = .error .panic)

namespace Same

variable {α β : Type} {closed : Prop}

theorem refl (x : Result F α) : Same closed x x := .inl rfl

variable {x y : Result F α}

theorem eq (h : Same closed x y) (hclosed : closed) : y = x := by
  rcases h with h | ⟨h, -⟩
  · exact h
  · exact absurd hclosed h

theorem eq_of_ne (h : Same closed x y) (hx : x ≠ .error .panic) : y = x := by
  rcases h with h | ⟨-, h⟩
  · exact h
  · exact absurd h hx

theorem bind {k k' : α → Result F β} (h : Same closed x y) (hk : ∀ a, Same closed (k a) (k' a)) :
    Same closed (x >>= k) (y >>= k') := by
  rcases h with rfl | ⟨hclosed, rfl⟩
  · cases y with
    | ok a => exact hk a
    | error e => exact refl _
  · exact .inr ⟨hclosed, rfl⟩

theorem foldlM {m : β → β} {k k' : α → β → Result F α} (xs : List β) (hk : ∀ b ∈ xs, ∀ a, Same closed (k a b) (k' a (m b)))
    (a : α) : Same closed (xs.foldlM k a) ((xs.map m).foldlM k' a) := by
  induction xs generalizing a with
  | nil => exact refl _
  | cons b xs ih =>
    rw [map_cons, foldlM_cons, foldlM_cons]
    apply bind (hk b (by simp) a)
    intro a
    exact ih (fun b hb => hk b (by simp [hb])) a

theorem foldlM_self {k k' : α → β → Result F α} (xs : List β) (hk : ∀ b ∈ xs, ∀ a, Same closed (k a b) (k' a b)) (a : α) :
    Same closed (xs.foldlM k a) (xs.foldlM k' a) := by
  have h := foldlM (m := id) xs hk a
  rwa [map_id] at h

end Same

/-! ## Graphs whose nodes have moved -/

def Within (closed : Prop) (G : Graph F D) (id : Nat) : Prop := closed → id < G.nodes.length

/-- `f` says where the nodes of `G` are in `H`. -/
structure Moved (closed : Prop) (f : Nat → Nat) (G H : Graph F D) : Prop where
  node : ∀ i node, G.nodes[i]? = some node → H.nodes[f i]? = some (node.relocate f)
  within : ∀ node ∈ G.nodes, ∀ id ∈ node.references, Within closed G id

def Follows (closed : Prop) (f : Nat → Nat) (G : Graph F D) (step step' : Step F) : Prop :=
  ∀ id, Within closed G id → ∀ input path, Same closed (step id input path) (step' (f id) input path)

section

variable {α : Type} {closed : Prop} {f : Nat → Nat} {G H : Graph F D}

theorem Moved.look {k k' : Node F D → Result F α} (h : Moved closed f G H) {id : Nat} (hid : Within closed G id)
    (hk : ∀ node ∈ G.nodes, Same closed (k node) (k' (node.relocate f))) :
    Same closed (G.node id >>= k) (H.node (f id) >>= k') := by
  cases hnode : G.nodes[id]? with
  | none =>
    have hpanic : G.node id = .error .panic := by rw [Graph.node, hnode]; rfl
    refine .inr ⟨fun hclosed => ?_, by rw [hpanic]; rfl⟩
    have hlt := hid hclosed
    rw [List.getElem?_eq_none_iff] at hnode
    omega
  | some node =>
    have hG : G.node id = .ok node := by rw [Graph.node, hnode]; rfl
    have hH : H.node (f id) = .ok (node.relocate f) := by rw [Graph.node, h.node id node hnode]; rfl
    rw [hG, hH]
    exact hk node (mem_of_getElem? hnode)

theorem Same.reference {k k' : Nat → Result F α} (r : Option Nat) (hr : ∀ id, r = some id → Within closed G id)
    (hk : ∀ id, Within closed G id → Same closed (k id) (k' (f id))) :
    Same closed (expect r >>= k) (expect (r.map f) >>= k') := by
  cases r with
  | none => exact Same.refl _
  | some id => exact hk id (hr id rfl)

/-! ## One node -/

variable (L : Library F D) {step step' : Step F} {node : Node F D}

section

variable (hstep : Follows closed f G step step')
include hstep

theorem Same.inner (hnode : ∀ id ∈ node.references, Within closed G id)
    (input : Option (Value F)) (path : List (Value F)) :
    Same closed (parseInner step node input path) (parseInner step' (node.relocate f) input path) := by
  apply Same.reference node.innerType
  · intro id hid
    exact hnode id (by simp [Node.references, hid])
  · intro id hid
    exact hstep id hid input path

theorem Same.pipe (hnode : ∀ id ∈ node.references, Within closed G id)
    (input : Option (Value F)) (path : List (Value F)) :
    Same closed (parsePipe step node input path) (parsePipe step' (node.relocate f) input path) := by
  apply Same.reference node.input (fun id hid => hnode id (by simp [Node.references, hid]))
  intro id hid
  apply Same.bind (hstep id hid input path)
  intro result
  split
  · exact Same.refl _
  · apply Same.reference node.output (fun id hid => hnode id (by simp [Node.references, hid]))
    intro id hid
    exact hstep id hid result.value path

theorem Same.intersection (hnode : ∀ id ∈ node.references, Within closed G id)
    (input : Option (Value F)) (path : List (Value F)) :
    Same closed (parseIntersection step node input path) (parseIntersection step' (node.relocate f) input path) := by
  apply Same.reference node.left (fun id hid => hnode id (by simp [Node.references, hid]))
  intro left hleft
  apply Same.bind (hstep left hleft input path)
  intro leftResult
  apply Same.reference node.right (fun id hid => hnode id (by simp [Node.references, hid]))
  intro right hright
  apply Same.bind (hstep right hright input path)
  intro rightResult
  exact Same.refl _

theorem Same.array (hnode : ∀ id ∈ node.references, Within closed G id)
    (input : Option (Value F)) (path : List (Value F)) :
    Same closed (parseArray L step node input path) (parseArray L step' (node.relocate f) input path) := by
  unfold parseArray
  dsimp only
  cases asArray input with
  | none => exact Same.refl _
  | some array =>
    apply Same.bind
    · apply Same.foldlM_self
      intro item _ s
      apply Same.reference node.element (fun id hid => hnode id (by simp [Node.references, hid]))
      intro id hid
      apply Same.bind (hstep id hid _ _)
      intro child
      exact Same.refl _
    · intro s
      exact Same.refl _

end

theorem Same.property (h : Moved closed f G H) (hstep : Follows closed f G step step') {entry : String × Nat}
    (hentry : Within closed G entry.2) (object : Object F) (path : List (Value F)) (s : Parsed F × Object F) :
    Same closed (parseProperty G step object path s entry) (parseProperty H step' object path s (entry.1, f entry.2)) := by
  apply Same.bind (hstep entry.2 hentry _ _)
  intro child
  apply h.look hentry
  intro schema _
  exact Same.refl _

theorem Same.extra (hstep : Follows closed f G step step') {catchall : Nat} (hcatchall : Within closed G catchall)
    (object : Object F) (path : List (Value F)) (s : Parsed F × Object F) (key : JsString) :
    Same closed (parseExtra step catchall object path s key) (parseExtra step' (f catchall) object path s key) := by
  apply Same.bind (hstep catchall hcatchall _ _)
  intro child
  exact Same.refl _

theorem unshaped_relocate (keys : List JsString) :
    keys.filter (fun key => !(node.relocate f).shape.any fun entry => jsText entry.1 = key) =
      keys.filter fun key => !node.shape.any fun entry => jsText entry.1 = key := by
  simp [Node.relocate, any_map, Function.comp_def]

theorem Same.object (h : Moved closed f G H) (hstep : Follows closed f G step step')
    (hnode : ∀ id ∈ node.references, Within closed G id) (input : Option (Value F)) (path : List (Value F)) :
    Same closed (parseObject G step node input path) (parseObject H step' (node.relocate f) input path) := by
  unfold parseObject
  dsimp only
  cases asObject input with
  | none => exact Same.refl _
  | some object =>
    apply Same.bind
    · apply Same.foldlM
      intro entry hentry s
      refine Same.property h hstep (hnode entry.2 ?_) object path s
      simp only [Node.references, mem_append, mem_map]
      exact .inl (.inl (.inl ⟨entry, hentry, rfl⟩))
    · intro s
      rw [unshaped_relocate]
      cases hcatchall : node.catchall with
      | none =>
        have hmoved : (node.relocate f).catchall = none := by simp [Node.relocate, hcatchall]
        rw [hmoved]
        exact Same.refl _
      | some catchall =>
        have hmoved : (node.relocate f).catchall = some (f catchall) := by simp [Node.relocate, hcatchall]
        have hwithin := hnode catchall (by simp [Node.references, hcatchall])
        rw [hmoved]
        apply h.look hwithin
        intro schema _
        dsimp only [Node.relocate]
        split
        · exact Same.refl _
        · apply Same.bind
          · apply Same.foldlM_self
            intro key _ s
            exact Same.extra hstep hwithin object path s key
          · intro s
            exact Same.refl _

theorem Same.items (hstep : Follows closed f G step step') {id : Nat} (hid : Within closed G id) (path : List (Value F))
    (s : Parsed F × List (Value F)) (item : Value F × Nat) :
    Same closed (parseItems L step id path s item) (parseItems L step' (f id) path s item) := by
  apply Same.bind (hstep id hid _ _)
  intro child
  exact Same.refl _

theorem Same.minimum (h : Moved closed f G H) (ids : List Nat) (hids : ∀ id ∈ ids, Within closed G id) :
    Same closed (minimum G ids) (minimum H (ids.map f)) := by
  induction ids with
  | nil => exact Same.refl _
  | cons id before ih =>
    rw [map_cons, Contracts.minimum, Contracts.minimum]
    apply h.look (hids id (by simp))
    intro schema _
    rw [length_map]
    cases hoptional : schema.optionalIn with
    | false =>
      have hmoved : (schema.relocate f).optionalIn = false := hoptional
      simp only [hmoved, Bool.not_false, if_true]
      exact Same.refl _
    | true =>
      have hmoved : (schema.relocate f).optionalIn = true := hoptional
      simp only [hmoved, Bool.not_true, Bool.false_eq_true, if_false]
      exact ih fun id hid => hids id (by simp [hid])

theorem Same.item (hstep : Follows closed f G step step') (array : List (Value F)) (path : List (Value F))
    (s : Parsed F × List (Value F)) {item : Nat × Nat} (hitem : Within closed G item.1) :
    Same closed (parseItem L step array path s item) (parseItem L step' array path s (f item.1, item.2)) := by
  apply Same.bind (hstep item.1 hitem _ _)
  intro child
  exact Same.refl _

theorem Same.tuple (h : Moved closed f G H) (hstep : Follows closed f G step step')
    (hnode : ∀ id ∈ node.references, Within closed G id) (input : Option (Value F)) (path : List (Value F)) :
    Same closed (parseTuple L G step node input path) (parseTuple L H step' (node.relocate f) input path) := by
  have hitems : ∀ id ∈ node.items, Within closed G id := by
    intro id hid
    exact hnode id (by simp [Node.references, hid])
  have hlength : (node.relocate f).items.length = node.items.length := by simp [Node.relocate]
  unfold parseTuple
  dsimp only
  cases asArray input with
  | none => exact Same.refl _
  | some array =>
    apply Same.bind
    · have hreverse : (node.relocate f).items.reverse = node.items.reverse.map f := by simp [Node.relocate]
      rw [hreverse]
      exact Same.minimum h _ fun id hid => hitems id (mem_reverse.1 hid)
    · intro least
      have hrest : (node.relocate f).rest.isNone = node.rest.isNone := by simp [Node.relocate]
      rw [hlength, hrest]
      split
      · exact Same.refl _
      · split
        · exact Same.refl _
        · apply Same.bind
          · have hzip : (node.relocate f).items.zipIdx = node.items.zipIdx.map fun item => (f item.1, item.2) := by
              simp [Node.relocate, zipIdx_map, Prod.map]
            rw [hzip]
            apply Same.foldlM
            intro item hitem s
            exact Same.item L hstep array path s (hitems item.1 (fst_mem_of_mem_zipIdx hitem))
          · intro s
            cases hcases : node.rest with
            | none =>
              have hmoved : (node.relocate f).rest = none := by simp [Node.relocate, hcases]
              rw [hmoved]
              exact Same.refl _
            | some rest =>
              have hmoved : (node.relocate f).rest = some (f rest) := by simp [Node.relocate, hcases]
              rw [hmoved]
              apply Same.bind
              · apply Same.foldlM_self
                intro item _ s
                exact Same.items L hstep (hnode rest (by simp [Node.references, hcases])) path s item
              · intro s
                exact Same.refl _

theorem Same.entry (hstep : Follows closed f G step step') {keyType valueType : Nat} (hkey : Within closed G keyType)
    (hvalue : Within closed G valueType) (object : Object F) (path : List (Value F)) (s : Parsed F × Object F) (key : JsString) :
    Same closed (parseEntry step keyType valueType object path s key)
      (parseEntry step' (f keyType) (f valueType) object path s key) := by
  apply Same.bind (hstep keyType hkey _ _)
  intro checked
  split
  · exact Same.refl _
  · apply Same.bind (hstep valueType hvalue _ _)
    intro child
    exact Same.refl _

theorem Same.record (h : Moved closed f G H) (hstep : Follows closed f G step step')
    (hnode : ∀ id ∈ node.references, Within closed G id) (input : Option (Value F)) (path : List (Value F)) :
    Same closed (parseRecord G step node input path) (parseRecord H step' (node.relocate f) input path) := by
  unfold parseRecord
  dsimp only
  cases asObject input with
  | none => exact Same.refl _
  | some object =>
    apply Same.reference node.keyType (fun id hid => hnode id (by simp [Node.references, hid]))
    intro keyType hkey
    apply Same.reference node.valueType (fun id hid => hnode id (by simp [Node.references, hid]))
    intro valueType hvalue
    apply h.look hkey
    intro schema _
    dsimp only [Node.relocate]
    have hkeys : ∀ keys : List JsString, Same closed
        (keys.foldlM (parseEntry step keyType valueType object path) ({ value := input }, []))
        (keys.foldlM (parseEntry step' (f keyType) (f valueType) object path) ({ value := input }, [])) := by
      intro keys
      apply Same.foldlM_self
      intro key _ s
      exact Same.entry hstep hkey hvalue object path s key
    split
    · apply Same.bind (Same.refl _)
      intro keys
      apply Same.bind (hkeys keys)
      intro s
      exact Same.refl _
    · apply Same.bind (Same.refl _)
      intro keys
      apply Same.bind (hkeys keys)
      intro s
      exact Same.refl _

/-! ## Unions -/

theorem Same.discriminatorValues (h : Moved closed f G H) (depth : Nat) {id : Nat} (hid : Within closed G id) :
    Same closed (discriminatorValues G depth id) (discriminatorValues H depth (f id)) := by
  induction depth generalizing id with
  | zero => exact Same.refl _
  | succ depth ih =>
    rw [Contracts.discriminatorValues, Contracts.discriminatorValues]
    apply h.look hid
    intro node hnode
    dsimp only [Node.relocate]
    split
    · exact Same.refl _
    · exact Same.refl _
    · apply Same.reference node.innerType
      · intro id hid
        exact h.within node hnode id (by simp [Node.references, hid])
      · intro id hid
        apply Same.bind (ih hid)
        intro values
        exact Same.refl _
    · exact Same.refl _

theorem Same.discriminated (h : Moved closed f G H) (hstep : Follows closed f G step step') (depth : Nat) (key : String)
    (object : Object F) (input : Option (Value F)) (path : List (Value F)) (options : List Nat)
    (hoptions : ∀ id ∈ options, Within closed G id) (values : List (Option (Value F))) :
    Same closed (discriminated G step depth key object input path options values)
      (discriminated H step' depth key object input path (options.map f) values) := by
  induction options generalizing values with
  | nil => exact Same.refl _
  | cons id options ih =>
    have hid := hoptions id (by simp)
    rw [map_cons, Contracts.discriminated, Contracts.discriminated]
    apply h.look hid
    intro option hoption
    have hfind : ((option.relocate f).shape.find? fun entry => entry.1 = key).map Prod.snd =
        ((option.shape.find? fun entry => entry.1 = key).map Prod.snd).map f := by
      simp [Node.relocate, find?_map, Function.comp_def]
    rw [hfind]
    apply Same.reference
    · intro inner hinner
      rw [Option.map_eq_some_iff] at hinner
      obtain ⟨entry, hentry, rfl⟩ := hinner
      refine h.within option hoption entry.2 ?_
      simp only [Node.references, mem_append, mem_map]
      exact .inl (.inl (.inl ⟨entry, mem_of_find?_eq_some hentry, rfl⟩))
    · intro inner hinner
      apply Same.bind (Same.discriminatorValues h depth hinner)
      intro candidates
      split
      · apply Same.bind (hstep id hid input path)
        intro chosen
        exact Same.refl _
      · exact ih (fun id hid => hoptions id (by simp [hid])) _

theorem Same.alternatives (hstep : Follows closed f G step step') (input : Option (Value F)) (options : List Nat)
    (hoptions : ∀ id ∈ options, Within closed G id) (parsed : List (Parsed F)) :
    Same closed (alternatives step input options parsed) (alternatives step' input (options.map f) parsed) := by
  induction options generalizing parsed with
  | nil => exact Same.refl _
  | cons id options ih =>
    rw [map_cons, Contracts.alternatives, Contracts.alternatives]
    apply Same.bind (hstep id (hoptions id (by simp)) input [])
    intro alternative
    split
    · exact Same.refl _
    · exact ih (fun id hid => hoptions id (by simp [hid])) _

theorem Same.union (h : Moved closed f G H) (hstep : Follows closed f G step step')
    (hnode : ∀ id ∈ node.references, Within closed G id) (depth : Nat) (input : Option (Value F)) (path : List (Value F)) :
    Same closed (parseUnion L G step depth node input path) (parseUnion L H step' depth (node.relocate f) input path) := by
  have hoptions : ∀ id ∈ node.options, Within closed G id := by
    intro id hid
    exact hnode id (by simp [Node.references, hid])
  unfold parseUnion
  dsimp only [Node.relocate]
  cases node.discriminator with
  | some key =>
    cases asObject input with
    | none => exact Same.refl _
    | some object =>
      apply Same.bind (Same.discriminated h hstep depth key object input path node.options hoptions [])
      intro chosen
      exact Same.refl _
  | none =>
    apply Same.bind (Same.alternatives hstep input node.options hoptions [])
    intro chosen
    exact Same.refl _

theorem Same.kind (h : Moved closed f G H) (hstep : Follows closed f G step step')
    (hnode : ∀ id ∈ node.references, Within closed G id) (depth : Nat) (input : Option (Value F)) (path : List (Value F)) :
    Same closed (parseKind L G step depth node input path) (parseKind L H step' depth (node.relocate f) input path) := by
  have hinner := Same.inner hstep hnode
  have hkind : (node.relocate f).kind = node.kind := rfl
  unfold parseKind
  dsimp only
  rw [hkind]
  cases node.kind with
  | optional | nullable | default =>
    dsimp only
    split
    · exact Same.refl _
    · exact hinner input path
  | prefault =>
    dsimp only
    split
    · exact hinner (some node.defaultValue) path
    · exact hinner input path
  | readonly | forward => exact hinner input path
  | pipe => exact Same.pipe hstep hnode input path
  | object => exact Same.object h hstep hnode input path
  | array => exact Same.array L hstep hnode input path
  | record => exact Same.record h hstep hnode input path
  | tuple => exact Same.tuple L h hstep hnode input path
  | union => exact Same.union L h hstep hnode depth input path
  | intersection => exact Same.intersection hstep hnode input path
  | transform | string | number | boolean | null | never | unknown | json | literal | enum | other => exact Same.refl _

theorem run_moved (h : Moved closed f G H) (depth : Nat) : Follows closed f G (run L G depth) (run L H depth) := by
  induction depth with
  | zero =>
    intro id _ input path
    exact Same.refl _
  | succ depth ih =>
    intro id hid input path
    apply h.look hid
    intro node hnode
    apply Same.bind (Same.kind L h ih (h.within node hnode) depth input path)
    intro result
    exact Same.refl _

end

/-! ## `append` -/

namespace Graph

def names (G : Graph F D) : List String := G.roots.map Prod.fst

structure Closed (G : Graph F D) : Prop where
  references : ∀ node ∈ G.nodes, ∀ id ∈ node.references, id < G.nodes.length
  roots : ∀ entry ∈ G.roots, entry.2 < G.nodes.length

def appendAll (G : Graph F D) (blocks : List (Graph F D)) : Graph F D := blocks.foldl append G

variable {G block : Graph F D} {blocks : List (Graph F D)} {name : String}

theorem root_isSome : (G.root name).isSome ↔ name ∈ G.names := by
  simp [root, names]

theorem root_eq_none : G.root name = none ↔ name ∉ G.names := by
  rw [← root_isSome]
  cases G.root name <;> simp

theorem Closed.root_lt (h : G.Closed) {id : Nat} (hid : G.root name = some id) : id < G.nodes.length := by
  rw [root, Option.map_eq_some_iff] at hid
  obtain ⟨entry, hentry, rfl⟩ := hid
  exact h.roots entry (mem_reverse.1 (mem_of_find?_eq_some hentry))

theorem root_append (G block : Graph F D) (name : String) :
    (G.append block).root name = ((block.root name).map (· + G.nodes.length)).or (G.root name) := by
  simp only [root, append, reverse_append, find?_append, ← map_reverse, find?_map, Function.comp_def]
  cases find? (fun entry => decide (entry.1 = name)) block.roots.reverse <;> simp

theorem root_appendAll (hnew : ∀ block ∈ blocks, name ∉ block.names) : (G.appendAll blocks).root name = G.root name := by
  induction blocks generalizing G with
  | nil => rfl
  | cons block blocks ih =>
    have hblock : block.root name = none := root_eq_none.2 (hnew block (by simp))
    have hrest := ih (G := G.append block) fun block hblock => hnew block (by simp [hblock])
    rw [appendAll, foldl_cons]
    rw [appendAll] at hrest
    rw [hrest, root_append, hblock]
    rfl

theorem nodes_appendAll (G : Graph F D) (blocks : List (Graph F D)) : ∃ more, (G.appendAll blocks).nodes = G.nodes ++ more := by
  induction blocks generalizing G with
  | nil => exact ⟨[], by simp [appendAll]⟩
  | cons block blocks ih =>
    obtain ⟨more, hmore⟩ := ih (G.append block)
    refine ⟨block.nodes.map (Node.relocate (· + G.nodes.length)) ++ more, ?_⟩
    rw [← append_assoc]
    exact hmore

theorem appendAll_split (G : Graph F D) (before after : List (Graph F D)) :
    G.appendAll (before ++ block :: after) = ((G.appendAll before).append block).appendAll after := by
  rw [appendAll, foldl_append, foldl_cons]
  rfl

end Graph

@[simp] theorem Node.relocate_id (node : Node F D) : node.relocate id = node := by
  simp [Node.relocate]

section

variable (L : Library F D) {base block : Graph F D} {blocks : List (Graph F D)} {name : String}

theorem moved_base (base : Graph F D) (blocks : List (Graph F D)) : Moved base.Closed id base (base.appendAll blocks) := by
  obtain ⟨more, hmore⟩ := base.nodes_appendAll blocks
  refine ⟨?_, ?_⟩
  · intro i node hi
    have hlt := (List.getElem?_eq_some_iff.1 hi).1
    rw [hmore, Node.relocate_id, id, getElem?_append_left hlt, hi]
  · intro node hnode id hid hclosed
    exact hclosed.references node hnode id hid

theorem moved_block (before : Graph F D) (hclosed : block.Closed) (after : List (Graph F D)) :
    Moved True (· + before.nodes.length) block ((before.append block).appendAll after) := by
  obtain ⟨more, hmore⟩ := (before.append block).nodes_appendAll after
  refine ⟨?_, ?_⟩
  · intro i node hi
    have hlt := (List.getElem?_eq_some_iff.1 hi).1
    have hnodes : (before.append block).nodes = before.nodes ++ block.nodes.map (Node.relocate (· + before.nodes.length)) := rfl
    rw [hmore, hnodes, append_assoc, getElem?_append_right (by omega), Nat.add_sub_cancel,
      getElem?_append_left (by rw [length_map]; exact hlt), getElem?_map, hi]
    rfl
  · intro node hnode id hid _
    exact hclosed.references node hnode id hid

theorem runRoot_base (hname : name ∈ base.names) (hnew : ∀ block ∈ blocks, name ∉ block.names) (depth : Nat)
    (input : Option (Value F)) (path : List (Value F)) :
    Same base.Closed (runRoot L base depth name input path) (runRoot L (base.appendAll blocks) depth name input path) := by
  rw [← Graph.root_isSome, Option.isSome_iff_exists] at hname
  obtain ⟨id, hid⟩ := hname
  rw [runRoot, runRoot, Graph.root_appendAll hnew, hid]
  exact run_moved L (moved_base base blocks) depth id (fun hclosed => hclosed.root_lt hid) input path

theorem runRoot_block (hclosed : block.Closed) (hname : name ∈ block.names) (before after : List (Graph F D))
    (hafter : ∀ later ∈ after, name ∉ later.names) (depth : Nat) (input : Option (Value F)) (path : List (Value F)) :
    runRoot L (base.appendAll (before ++ block :: after)) depth name input path = runRoot L block depth name input path := by
  rw [← Graph.root_isSome, Option.isSome_iff_exists] at hname
  obtain ⟨id, hid⟩ := hname
  have hroot := Graph.root_append (base.appendAll before) block name
  rw [Graph.appendAll_split, runRoot, runRoot, Graph.root_appendAll hafter, hroot, hid]
  exact (run_moved L (moved_block (base.appendAll before) hclosed after) depth id (fun _ => hclosed.root_lt hid) input path).eq
    trivial

/-- Blocks of which no two have a root of one name, in any order. -/
theorem appended_runs (order : List (Graph F D)) (hclosed : ∀ block ∈ blocks, block.Closed)
    (hnew : ∀ block ∈ blocks, ∀ name ∈ block.names, name ∉ base.names)
    (hindependent : blocks.Pairwise fun block other => ∀ name ∈ block.names, name ∉ other.names) (horder : order.Perm blocks)
    (depth : Nat) (input : Option (Value F)) (path : List (Value F)) :
    (∀ block ∈ blocks, ∀ name ∈ block.names,
      runRoot L (base.appendAll order) depth name input path = runRoot L block depth name input path) ∧
    ∀ name ∈ base.names, base.Closed ∨ runRoot L base depth name input path ≠ .error .panic →
      runRoot L (base.appendAll order) depth name input path = runRoot L base depth name input path := by
  refine ⟨?_, ?_⟩
  · intro block hblock name hname
    have hsymm : ∀ {a b : Graph F D}, (∀ name ∈ a.names, name ∉ b.names) → ∀ name ∈ b.names, name ∉ a.names := by
      intro a b h name hb ha
      exact h name ha hb
    have hpairs := (horder.pairwise_iff hsymm).2 hindependent
    obtain ⟨before, after, rfl⟩ := append_of_mem (horder.mem_iff.2 hblock)
    refine runRoot_block L (hclosed block hblock) hname before after ?_ depth input path
    intro later hlater
    exact rel_of_pairwise_cons (pairwise_append.1 hpairs).2.1 hlater name hname
  · intro name hname hresult
    have hsame := @runRoot_base _ _ L base order name hname ?_ depth input path
    · rcases hresult with hresult | hresult
      · exact hsame.eq hresult
      · exact hsame.eq_of_ne hresult
    · intro block hblock hmem
      exact hnew block (horder.mem_iff.1 hblock) name hmem hname

end

/-! ## Two blocks behind a base -/

namespace Sample

def plain : Library Wire.Sample.digits Unit where
  ofNat n := if h : n < 10 then some ⟨n, h⟩ else none
  isNaN _ := false
  string
    | .string v => some v
    | _ => none
  number
    | some (.number n) => some n
    | _ => none
  truthy _ := false
  hasLength _ := some false
  check _ result _ := .ok result
  transform _ result _ := .ok result
  json input _ := { value := input }

def names : Graph Wire.Sample.digits Unit where
  nodes := [{ kind := .string }]
  roots := [("Name", 0)]

/-- An object whose only property is again such an object, or missing. -/
def chain : Graph Wire.Sample.digits Unit where
  nodes := [{ kind := .object, shape := [("next", 1)] },
    { kind := .optional, optionalIn := true, optionalOut := true, innerType := some 0 }]
  roots := [("Chain", 0)]

def numbers : Graph Wire.Sample.digits Unit where
  nodes := [{ kind := .array, element := some 1 }, { kind := .number }]
  roots := [("Numbers", 0)]

theorem appended_runs_two :
    runRoot plain (names.appendAll [numbers, chain]) 5 "Chain" (some (.object [(jsText "next", .object [])])) [] =
        .ok { value := some (.object [(jsText "next", .object [])]) } ∧
      runRoot plain (names.appendAll [numbers, chain]) 5 "Name" (some (.string [65])) [] = .ok { value := some (.string [65]) } := by
  have hclosed : ∀ block ∈ [chain, numbers], block.Closed := by
    intro block hblock
    rw [mem_cons, mem_singleton] at hblock
    rcases hblock with rfl | rfl
    · exact ⟨by decide, by decide⟩
    · exact ⟨by decide, by decide⟩
  have hnew : ∀ block ∈ [chain, numbers], ∀ name ∈ block.names, name ∉ names.names := by decide
  have hruns := appended_runs plain [numbers, chain] hclosed hnew (by decide) (List.Perm.swap _ _ _) 5
  refine ⟨?_, ?_⟩
  · rw [(hruns _ _).1 chain (by simp) "Chain" (by decide)]
    rfl
  · rw [(hruns _ _).2 "Name" (by decide) (.inl ⟨by decide, by decide⟩)]
    rfl

end Sample

end Cantrip.Wire.Contracts
