/-
  WsdlCatalog.Proofs.PolicyHints — what policies ask of the callers of an operation.

  A policy demands something in each of its parts, however deep in operators they stand: an
  assertion asks for what it is called and for the tokens inside it, a reference for another
  policy. Told as one row of demands, a search is a fold (`hintsOf_eq`). It marks a policy
  before it looks into it, so that circles end; when the fold is past a mark that it made, all
  that the policy demands is met (`Grows.settled`), whichever element led there first. The
  depth of the search is one more than the number of declared policies, and every step down
  marks one of them, so the depth never ends the search (`follows_follow`).

  Proved: the hints of an operation are what the policies ask for that apply to its binding
  and to what the binding says of it, each once, in every service description
  (`SchemaSet.hints_of_description`).
-/

import WsdlCatalog.Proofs.SoapCalls

namespace WsdlCatalog

namespace Policy

/-! ## What applies -/

def identifier? (node : Xml.Node) : Option String :=
  if node.tag == "Policy" && isPolicyNamespace node.uri then
    (node.filled? (Vocabulary.clark Vocabulary.securityUtility "Id")).or (node.filled? "Name")
  else none

/-- A description declares a policy under an identifier: it is the last one that has it. -/
def Declares (definitions : Xml.Node) (id : String) (policy : Xml.Node) : Prop :=
  ∃ before after, definitions.walk = before ++ policy :: after ∧ identifier? policy = some id ∧
    ∀ other ∈ after, identifier? other ≠ some id

inductive Part : Xml.Node → Xml.Node → Prop
  | child {policy part : Xml.Node} : part ∈ policy.children → Part policy part
  | inside {policy operator part : Xml.Node} : operator ∈ policy.children →
      isPolicyNamespace operator.uri = true → isOperator operator.tag = true → Part operator part →
      Part policy part

/-- An assertion is called by a tag, or has a token inside that is. -/
def Names (assertion : Xml.Node) (hint : String) : Prop :=
  hint = assertion.tag ∨
    ∃ token ∈ assertion.descendants, token.tag.endsWith "Token" = true ∧ hint = token.tag

def RefersTo (node : Xml.Node) (id : String) : Prop :=
  isPolicyNamespace node.uri = true ∧ node.tag = "PolicyReference" ∧
    identifier ((node.attribute? "URI").getD "") = id

/-- An element of a description has the policy with an identifier attached, by an attribute or
by a child. -/
def Attaches (node : Xml.Node) (id : String) : Prop :=
  (∃ uri ∈ Vocabulary.policies, ∃ reference ∈
      Text.words ((node.attribute? (Vocabulary.clark uri "PolicyURIs")).getD ""),
    identifier reference = id) ∨ ∃ child ∈ node.children, RefersTo child id

/-- A policy applies to elements: it stands in one, is attached to one, or another policy that
applies refers to it. -/
inductive Applies (definitions : Xml.Node) (nodes : List Xml.Node) : Xml.Node → Prop
  | inline {node policy : Xml.Node} : node ∈ nodes → policy ∈ node.children →
      isPolicyNamespace policy.uri = true → policy.tag = "Policy" → Applies definitions nodes policy
  | attached {node policy : Xml.Node} {id : String} : node ∈ nodes → Attaches node id →
      Declares definitions id policy → Applies definitions nodes policy
  | referred {policy part other : Xml.Node} {id : String} : Applies definitions nodes policy →
      Part policy part → RefersTo part id → Declares definitions id other →
      Applies definitions nodes other

def Asks (definitions : Xml.Node) (nodes : List Xml.Node) (hint : String) : Prop :=
  ∃ policy assertion, Applies definitions nodes policy ∧ Part policy assertion ∧
    isPolicyNamespace assertion.uri = false ∧ Names assertion hint

/-! ## Rows of demands -/

inductive Demand where
  | assertion (node : Xml.Node)
  | reference (uri : String)

def meet (follow : Hints → String → Hints) (hints : Hints) : Demand → Hints
  | .assertion node => addAssertion hints node
  | .reference uri => follow hints uri

/-- What a child of a policy that is no operator demands. -/
def demandsOf (part : Xml.Node) : List Demand :=
  if isPolicyNamespace part.uri then
    if part.tag == "PolicyReference" then [.reference ((part.attribute? "URI").getD "")] else []
  else [.assertion part]

mutual

def demandsOfPart : Xml.Node → List Demand
  | ⟨uri, tag, attributes, bindings, children, text, line⟩ =>
    if isPolicyNamespace uri && isOperator tag then demands children
    else demandsOf ⟨uri, tag, attributes, bindings, children, text, line⟩

def demands : List Xml.Node → List Demand
  | [] => []
  | node :: rest => demandsOfPart node ++ demands rest

end

def attachedDemands (node : Xml.Node) : List Demand :=
  (Vocabulary.policies.flatMap fun uri =>
      Text.words ((node.attribute? (Vocabulary.clark uri "PolicyURIs")).getD "")).map .reference
    ++ node.children.flatMap fun child =>
      if isPolicyNamespace child.uri && child.tag == "Policy" then demands child.children
      else if isPolicyNamespace child.uri then demandsOf child
      else []

theorem operator_not_reference {tag : String} (h : isOperator tag = true) :
    (tag == "PolicyReference") = false := by
  simp only [isOperator, Bool.or_eq_true, beq_iff_eq] at h
  rcases h with (rfl | rfl) | rfl <;> decide

mutual

theorem collectPart_eq (follow : Hints → String → Hints) (hints : Hints) : ∀ node : Xml.Node,
    collectPart follow hints node = (demandsOfPart node).foldl (meet follow) hints
  | ⟨uri, tag, attributes, bindings, children, text, line⟩ => by
    unfold collectPart demandsOfPart demandsOf
    by_cases policy : isPolicyNamespace uri = true
    · by_cases operator : isOperator tag = true
      · simp only [policy, operator, Bool.and_self, if_true]
        exact collect_eq follow hints children
      · by_cases reference : (tag == "PolicyReference") = true
        · simp [policy, operator, reference, meet, Xml.Node.attribute?]
        · simp [policy, operator, reference]
    · simp [policy, meet]

theorem collect_eq (follow : Hints → String → Hints) (hints : Hints) : ∀ nodes : List Xml.Node,
    collect follow hints nodes = (demands nodes).foldl (meet follow) hints
  | [] => rfl
  | node :: rest => by
    unfold collect demands
    rw [List.foldl_append, collectPart_eq follow hints node, collect_eq follow _ rest]

end

variable {policies : Policies}

theorem addAttached_eq (hints : Hints) (node : Xml.Node) :
    addAttached policies hints node
      = (attachedDemands node).foldl (meet (follow policies (policies.length + 1))) hints := by
  unfold addAttached attachedDemands
  rw [List.foldl_append, List.foldl_flatMap, List.foldl_map]
  dsimp only
  congr 1
  funext hints child
  by_cases policy : isPolicyNamespace child.uri = true
  · by_cases inline : (child.tag == "Policy") = true
    · have other : (child.tag == "PolicyReference") = false := by
        rw [eq_of_beq inline]
        decide
      simp [policy, inline, other, collect_eq]
    · by_cases reference : (child.tag == "PolicyReference") = true
      · simp [policy, inline, reference, demandsOf, meet]
      · simp [policy, inline, reference, demandsOf]
  · simp [policy]

/-- The hints of elements are those that the demands of the elements add. -/
theorem hintsOf_eq (nodes : List Xml.Node) :
    hintsOf policies nodes = ((nodes.flatMap attachedDemands).foldl
      (meet (follow policies (policies.length + 1))) .none).found := by
  unfold hintsOf
  rw [List.foldl_flatMap]
  congr 2
  funext hints node
  exact addAttached_eq hints node

/-! ## What is met -/

/-- What an assertion adds to the hints. -/
theorem mem_addAssertion {hints : Hints} {node : Xml.Node} {hint : String} :
    hint ∈ (addAssertion hints node).found ↔ hint ∈ hints.found ∨ Names node hint := by
  have add (hints : Hints) (other : String) :
      hint ∈ (hints.add other).found ↔ hint ∈ hints.found ∨ hint = other := by
    unfold Hints.add
    split
    · rename_i known
      have : other ∈ hints.found := List.contains_iff_mem.mp known
      constructor
      · exact .inl
      · intro h
        rcases h with h | rfl
        · exact h
        · exact this
    · simp
  have all (tokens : List Xml.Node) (hints : Hints) :
      hint ∈ (tokens.foldl (fun hints node => hints.add node.tag) hints).found ↔
        hint ∈ hints.found ∨ ∃ token ∈ tokens, hint = token.tag := by
    induction tokens generalizing hints with
    | nil => simp
    | cons token rest ih =>
      rw [List.foldl_cons, ih, add]
      simp only [List.mem_cons, exists_eq_or_imp, or_assoc]
  unfold addAssertion Names
  rw [all, add, or_assoc]
  simp only [List.mem_filter, and_assoc]

theorem nodup_add {hints : Hints} (h : hints.found.Nodup) (hint : String) :
    (hints.add hint).found.Nodup := by
  unfold Hints.add
  split
  · exact h
  · rename_i new
    have fresh : hint ∉ hints.found := fun known => new (List.contains_iff_mem.mpr known)
    exact List.nodup_append.mpr ⟨h, List.nodup_singleton hint, fun a ha b hb same =>
      fresh (List.mem_singleton.mp hb ▸ same ▸ ha)⟩

theorem nodup_addAssertion {hints : Hints} (h : hints.found.Nodup) (node : Xml.Node) :
    (addAssertion hints node).found.Nodup := by
  unfold addAssertion
  generalize node.descendants.filter (fun node => node.tag.endsWith "Token") = tokens
  have start := nodup_add h node.tag
  revert start
  generalize hints.add node.tag = hints
  intro start
  induction tokens generalizing hints with
  | nil => exact start
  | cons token rest ih => exact ih _ (nodup_add start token.tag)

theorem visited_addAssertion (hints : Hints) (node : Xml.Node) :
    (addAssertion hints node).visited = hints.visited := by
  have add (hints : Hints) (hint : String) : (hints.add hint).visited = hints.visited := by
    unfold Hints.add
    split <;> rfl
  unfold addAssertion
  rw [← add hints node.tag]
  generalize node.descendants.filter (fun node => node.tag.endsWith "Token") = tokens
  generalize hints.add node.tag = hints
  induction tokens generalizing hints with
  | nil => rfl
  | cons token rest ih => rw [List.foldl_cons, ih, add]

/-- A demand is met: an assertion by its hints, a reference by a look at the policy. -/
def Met (hints : Hints) : Demand → Prop
  | .assertion node => ∀ hint, Names node hint → hint ∈ hints.found
  | .reference uri => identifier uri = "" ∨ identifier uri ∈ hints.visited

structure Grows (policies : Policies) (before after : Hints) : Prop where
  found : before.found ⊆ after.found
  visited : before.visited ⊆ after.visited
  settled : ∀ id ∈ after.visited, id ∉ before.visited → ∀ policy,
    policies.lookup id = some policy → ∀ d ∈ demands policy.children, Met after d

theorem Met.mono {before after : Hints} (h : Grows policies before after) {d : Demand}
    (hd : Met before d) : Met after d := by
  cases d with
  | assertion node => exact fun hint names => h.found (hd hint names)
  | reference uri => exact hd.imp id fun visited => h.visited visited

theorem Grows.refl (policies : Policies) (hints : Hints) : Grows policies hints hints :=
  ⟨fun _ h => h, fun _ h => h, fun _ h new => absurd h new⟩

theorem Grows.trans {first second third : Hints} (h : Grows policies first second)
    (h' : Grows policies second third) : Grows policies first third := by
  refine ⟨fun _ hx => h'.found (h.found hx), fun _ hx => h'.visited (h.visited hx), ?_⟩
  intro id hid new policy declared d hd
  by_cases between : id ∈ second.visited
  · exact (h.settled id between new policy declared d hd).mono h'
  · exact h'.settled id hid between policy declared d hd

/-- The declared policies that were not looked into. -/
def unvisited (policies : Policies) (hints : Hints) : Nat :=
  (policies.filter fun x => !hints.visited.contains x.1).length

theorem unvisited_mono {before after : Hints} (h : before.visited ⊆ after.visited) :
    unvisited policies after ≤ unvisited policies before := by
  unfold unvisited
  apply List.Sublist.length_le
  apply List.monotone_filter_right
  intro x hx
  simp only [Bool.not_eq_true', List.contains_eq_mem, decide_eq_false_iff_not] at hx ⊢
  exact fun visited => hx (h visited)

/-- To look into a declared policy leaves fewer. -/
theorem unvisited_visit {hints : Hints} {id : String} {policy : Xml.Node}
    (declared : policies.lookup id = some policy) (new : id ∉ hints.visited) :
    unvisited policies { hints with visited := id :: hints.visited } < unvisited policies hints := by
  unfold unvisited
  have here : (id, policy) ∈ policies.filter fun x => !hints.visited.contains x.1 := by
    simp [mem_of_lookup declared, new]
  have fewer : (policies.filter fun x => !(id :: hints.visited).contains x.1)
      = (policies.filter fun x => !hints.visited.contains x.1).filter fun x => x.1 != id := by
    rw [List.filter_filter]
    apply List.filter_congr
    intro x _
    by_cases same : x.1 = id <;> simp [same]
  rw [fewer]
  exact List.length_filter_lt_length_iff_exists.mpr ⟨_, here, by simp⟩

/-! ## The search -/

/-- A step meets references as long as fewer than `n` policies were not looked into. -/
def Follows (policies : Policies) (n : Nat) (follow : Hints → String → Hints) : Prop :=
  ∀ hints uri, unvisited policies hints < n →
    Grows policies hints (follow hints uri) ∧ Met (follow hints uri) (.reference uri)

variable {n : Nat} {follow' : Hints → String → Hints}

theorem Follows.meet (h : Follows policies n follow') {hints : Hints} (d : Demand)
    (few : unvisited policies hints < n) :
    Grows policies hints (meet follow' hints d) ∧ Met (Policy.meet follow' hints d) d := by
  cases d with
  | reference uri => exact h hints uri few
  | assertion node =>
    have same : (addAssertion hints node).visited = hints.visited := visited_addAssertion hints node
    refine ⟨⟨fun hint hf => mem_addAssertion.mpr (.inl hf), ?_, ?_⟩, ?_⟩
    · exact fun id hid => same.symm ▸ hid
    · exact fun id hid new => absurd (same ▸ hid) new
    · exact fun hint names => mem_addAssertion.mpr (.inr names)

/-- A row of demands is met as a whole. -/
theorem Follows.foldl (h : Follows policies n follow') (ds : List Demand) {hints : Hints}
    (few : unvisited policies hints < n) :
    Grows policies hints (ds.foldl (Policy.meet follow') hints) ∧
      ∀ d ∈ ds, Met (ds.foldl (Policy.meet follow') hints) d := by
  induction ds generalizing hints with
  | nil => exact ⟨.refl policies hints, nofun⟩
  | cons d rest ih =>
    obtain ⟨grows, met⟩ := h.meet d few
    have few' := lt_of_le_of_lt (unvisited_mono grows.visited) few
    obtain ⟨grows', met'⟩ := ih few'
    exact ⟨grows.trans grows', List.forall_mem_cons.mpr ⟨met.mono grows', met'⟩⟩

/-- The depth of a search suffices if it is more than the policies that were not looked into. -/
theorem follows_follow (policies : Policies) (n : Nat) :
    Follows policies n (follow policies n) := by
  induction n with
  | zero => exact fun _ _ few => absurd few (Nat.not_lt_zero _)
  | succ n ih =>
    intro hints uri few
    unfold follow
    dsimp only
    by_cases skipped : (identifier uri == "" || hints.visited.contains (identifier uri)) = true
    · rw [if_pos skipped]
      simp only [Bool.or_eq_true, beq_iff_eq, List.contains_iff_mem] at skipped
      exact ⟨.refl policies hints, skipped⟩
    · rw [if_neg skipped]
      simp only [Bool.or_eq_true, beq_iff_eq, List.contains_iff_mem, not_or] at skipped
      obtain ⟨-, new⟩ := skipped
      cases declared : policies.lookup (identifier uri) with
      | none =>
        refine ⟨⟨fun _ h => h, List.subset_cons_self _ _, ?_⟩, .inr List.mem_cons_self⟩
        intro id hid notBefore policy found
        rcases List.mem_cons.mp hid with rfl | hid
        · rw [declared] at found
          cases found
        · exact absurd hid notBefore
      | some policy =>
        have fewer := lt_of_lt_of_le (unvisited_visit declared new) (Nat.le_of_lt_succ few)
        obtain ⟨grows, met⟩ := ih.foldl (demands policy.children) fewer
        rw [← collect_eq] at grows met
        refine ⟨⟨grows.found, fun _ h => grows.visited (List.mem_cons_of_mem _ h), ?_⟩,
          .inr (grows.visited List.mem_cons_self)⟩
        intro id hid notBefore other found
        by_cases here : id = identifier uri
        · rw [here, declared] at found
          cases found
          exact met
        · refine grows.settled id hid ?_ other found
          exact fun visited => (List.mem_cons.mp visited).elim here notBefore

structure Warrants (policies : Policies) (warranted : Demand → Prop) (asked : String → Prop) : Prop where
  assertion : ∀ node, warranted (.assertion node) → ∀ hint, Names node hint → asked hint
  reference : ∀ uri policy, warranted (.reference uri) →
    policies.lookup (identifier uri) = some policy → ∀ d ∈ demands policy.children, warranted d

def Sound (asked : String → Prop) (hints : Hints) : Prop :=
  hints.found.Nodup ∧ ∀ hint ∈ hints.found, asked hint

variable {warranted : Demand → Prop} {asked : String → Prop}

theorem Warrants.foldl (h : Warrants policies warranted asked)
    (hf : ∀ hints uri, Sound asked hints → warranted (.reference uri) → Sound asked (follow' hints uri))
    (ds : List Demand) (hd : ∀ d ∈ ds, warranted d) {hints : Hints} (sound : Sound asked hints) :
    Sound asked (ds.foldl (meet follow') hints) := by
  induction ds generalizing hints with
  | nil => exact sound
  | cons d rest ih =>
    obtain ⟨first, others⟩ := List.forall_mem_cons.mp hd
    apply ih others
    cases d with
    | reference uri => exact hf hints uri sound first
    | assertion node =>
      refine ⟨nodup_addAssertion sound.1 node, fun hint found => ?_⟩
      rcases mem_addAssertion.mp found with found | names
      · exact sound.2 hint found
      · exact h.assertion node first hint names

theorem Warrants.follow (h : Warrants policies warranted asked) (n : Nat) :
    ∀ hints uri, Sound asked hints → warranted (.reference uri) →
      Sound asked (follow policies n hints uri) := by
  induction n with
  | zero => exact fun _ _ sound _ => sound
  | succ n ih =>
    intro hints uri sound warrant
    unfold Policy.follow
    dsimp only
    split
    · exact sound
    · split
      · rename_i policy declared
        rw [collect_eq]
        exact h.foldl ih _ (h.reference uri policy warrant declared) sound
      · exact sound

/-! ## Demands and parts -/

variable {d : Demand} {policy part : Xml.Node}

theorem demandsOfPart_eq (node : Xml.Node) : demandsOfPart node
    = if isPolicyNamespace node.uri && isOperator node.tag then demands node.children
      else demandsOf node := by
  cases node
  rw [demandsOfPart]

theorem demandsOf_operator (ns : isPolicyNamespace part.uri = true) (op : isOperator part.tag = true) :
    demandsOf part = [] := by
  unfold demandsOf
  rw [if_pos ns, operator_not_reference op, if_neg Bool.false_ne_true]

theorem mem_demands {nodes : List Xml.Node} :
    d ∈ demands nodes ↔ ∃ node ∈ nodes, d ∈ demandsOfPart node := by
  induction nodes with
  | nil => simp [demands]
  | cons node rest ih => simp [demands, ih]

mutual

theorem part_of_demandsOfPart : ∀ node policy : Xml.Node, node ∈ policy.children →
    d ∈ demandsOfPart node → ∃ part, Part policy part ∧ d ∈ demandsOf part
  | ⟨uri, tag, attributes, bindings, children, text, line⟩, policy => by
    intro member demanded
    rw [demandsOfPart_eq] at demanded
    split at demanded
    · rename_i operator
      obtain ⟨ns, op⟩ := Bool.and_eq_true_iff.mp operator
      obtain ⟨part, inner, hd⟩ := part_of_demands children
        ⟨uri, tag, attributes, bindings, children, text, line⟩ (fun _ h => h) demanded
      exact ⟨part, .inside member ns op inner, hd⟩
    · exact ⟨_, .child member, demanded⟩

theorem part_of_demands : ∀ (nodes : List Xml.Node) (policy : Xml.Node), nodes ⊆ policy.children →
    d ∈ demands nodes → ∃ part, Part policy part ∧ d ∈ demandsOf part
  | [], _ => fun _ demanded => absurd demanded List.not_mem_nil
  | node :: rest, policy => by
    intro members demanded
    rw [List.cons_subset] at members
    rw [demands, List.mem_append] at demanded
    rcases demanded with demanded | demanded
    · exact part_of_demandsOfPart node policy members.1 demanded
    · exact part_of_demands rest policy members.2 demanded

end

/-- A policy demands what its parts demand. -/
theorem mem_demands_iff : d ∈ demands policy.children ↔ ∃ part, Part policy part ∧ d ∈ demandsOf part := by
  constructor
  · exact part_of_demands policy.children policy fun _ h => h
  · intro given
    rcases given with ⟨part, stands, demanded⟩
    induction stands with
    | child member =>
      refine mem_demands.mpr ⟨_, member, ?_⟩
      rw [demandsOfPart_eq]
      split
      · rename_i operator
        obtain ⟨ns, op⟩ := Bool.and_eq_true_iff.mp operator
        rw [demandsOf_operator ns op] at demanded
        cases demanded
      · exact demanded
    | inside member ns op _ ih =>
      refine mem_demands.mpr ⟨_, member, ?_⟩
      rw [demandsOfPart_eq, ns, op, Bool.and_self, if_pos rfl]
      exact ih demanded

theorem reference_mem_demandsOf {uri : String} : .reference uri ∈ demandsOf part ↔
    isPolicyNamespace part.uri = true ∧ part.tag = "PolicyReference" ∧
      uri = (part.attribute? "URI").getD "" := by
  unfold demandsOf
  by_cases ns : isPolicyNamespace part.uri = true
  · by_cases reference : part.tag = "PolicyReference" <;> simp [ns, reference]
  · simp [ns]

theorem assertion_mem_demandsOf {node : Xml.Node} :
    .assertion node ∈ demandsOf part ↔ isPolicyNamespace part.uri = false ∧ node = part := by
  unfold demandsOf
  by_cases ns : isPolicyNamespace part.uri = true
  · by_cases reference : part.tag = "PolicyReference" <;> simp [ns, reference]
  · simp [ns]

theorem mem_attachedDemands {node : Xml.Node} : d ∈ attachedDemands node ↔
    (∃ uri ∈ Vocabulary.policies, ∃ reference ∈
        Text.words ((node.attribute? (Vocabulary.clark uri "PolicyURIs")).getD ""),
      d = .reference reference) ∨
    ∃ child ∈ node.children, isPolicyNamespace child.uri = true ∧
      ((child.tag = "Policy" ∧ d ∈ demands child.children) ∨
        (child.tag ≠ "Policy" ∧ d ∈ demandsOf child)) := by
  unfold attachedDemands
  rw [List.mem_append, List.mem_map, List.mem_flatMap]
  refine or_congr ?_ (exists_congr fun child => and_congr_right fun _ => ?_)
  · constructor
    · intro given
      rcases given with ⟨reference, listed, rfl⟩
      obtain ⟨uri, hu, hr⟩ := List.mem_flatMap.mp listed
      exact ⟨uri, hu, reference, hr, rfl⟩
    · intro given
      rcases given with ⟨uri, hu, reference, hr, rfl⟩
      exact ⟨reference, List.mem_flatMap.mpr ⟨uri, hu, hr⟩, rfl⟩
  · by_cases ns : isPolicyNamespace child.uri = true
    · by_cases inline : child.tag = "Policy" <;> simp [ns, inline]
    · simp [ns]

/-! ## Declared policies -/

/-- Among items that go by keys, the last of a key is found under it. -/
theorem lookup_keyed {α β : Type} [BEq α] [LawfulBEq α] {key : β → Option α} {items : List β} {k : α}
    {value : β} :
    (putAll (items.filterMap fun item => (key item).map (·, item))).lookup k = some value ↔
      ∃ before after, items = before ++ value :: after ∧ key value = some k ∧
        ∀ other ∈ after, key other ≠ some k := by
  have entry {item : β} {x : α × β} (h : (key item).map (·, item) = some x) :
      key item = some x.1 ∧ item = x.2 := by
    obtain ⟨name, named, rfl⟩ := Option.map_eq_some_iff.mp h
    exact ⟨named, rfl⟩
  rw [lookup_putAll]
  constructor
  · intro found
    obtain ⟨later, earlier, split, others⟩ := List.lookup_eq_some_iff.mp found
    rw [List.reverse_eq_iff, List.reverse_append, List.reverse_cons, List.append_assoc,
      List.singleton_append] at split
    obtain ⟨first, second, rfl, -, rest⟩ := List.filterMap_eq_append_iff.mp split
    obtain ⟨skipped, item, after, rfl, -, here, behind⟩ := List.filterMap_eq_cons_iff.mp rest
    obtain ⟨named, rfl⟩ := entry here
    refine ⟨first ++ skipped, after, by rw [List.append_assoc], named, fun other ho same => ?_⟩
    have listed : (k, other) ∈ later.reverse := by
      rw [← behind]
      exact List.mem_filterMap.mpr ⟨other, ho, by rw [same]; rfl⟩
    have differs := others _ (List.mem_reverse.mp listed)
    simp at differs
  · intro given
    rcases given with ⟨before, after, rfl, named, others⟩
    have none : (after.filterMap fun item => (key item).map (·, item)).reverse.lookup k = none := by
      rw [lookup_eq_none]
      intro known
      obtain ⟨x, hx, rfl⟩ := List.mem_map.mp known
      obtain ⟨item, hi, he⟩ := List.mem_filterMap.mp (List.mem_reverse.mp hx)
      exact others item hi (entry he).1
    rw [List.filterMap_append, List.filterMap_cons, named, Option.map_some, List.reverse_append,
      List.reverse_cons, List.append_assoc, List.lookup_append, none, Option.none_or,
      List.singleton_append, List.lookup_cons, beq_self_eq_true]

/-- A description declares the policies that are found in it. -/
theorem lookup_inside {definitions : Xml.Node} {id : String} {policy : Xml.Node} :
    (inside definitions).lookup id = some policy ↔ Declares definitions id policy := by
  have same : inside definitions
      = putAll (definitions.walk.filterMap fun node => (identifier? node).map (·, node)) := by
    unfold inside identifier?
    congr 2
    funext node
    dsimp only
    split <;> rfl
  rw [same, lookup_keyed]
  rfl

theorem Declares.id_ne_empty {definitions : Xml.Node} {id : String} {policy : Xml.Node}
    (h : Declares definitions id policy) : id ≠ "" := by
  obtain ⟨-, -, -, named, -⟩ := h
  have filled {name : String} (h : policy.filled? name = some id) : id ≠ "" :=
    bne_iff_ne.mp (Option.filter_eq_some_iff.mp h).2
  unfold identifier? at named
  split at named
  · rcases Option.or_eq_some_iff.mp named with named | ⟨-, named⟩
    · exact filled named
    · exact filled named
  · cases named

/-! ## The hints of elements -/

variable {definitions : Xml.Node} {nodes : List Xml.Node}

def Demanded (definitions : Xml.Node) (nodes : List Xml.Node) : Demand → Prop
  | .assertion node => ∃ policy, Applies definitions nodes policy ∧ Part policy node ∧
      isPolicyNamespace node.uri = false
  | .reference uri => (∃ node ∈ nodes, Attaches node (identifier uri)) ∨
      ∃ policy part, Applies definitions nodes policy ∧ Part policy part ∧
        RefersTo part (identifier uri)

theorem demanded_of_applies (h : Applies definitions nodes policy) :
    ∀ d ∈ demands policy.children, Demanded definitions nodes d := by
  intro d hd
  obtain ⟨part, stands, hd⟩ := mem_demands_iff.mp hd
  cases d with
  | assertion node =>
    obtain ⟨ns, rfl⟩ := assertion_mem_demandsOf.mp hd
    exact ⟨policy, h, stands, ns⟩
  | reference uri =>
    obtain ⟨ns, tag, rfl⟩ := reference_mem_demandsOf.mp hd
    exact .inr ⟨policy, part, h, stands, ns, tag, rfl⟩

theorem demanded_of_attached {node : Xml.Node} (h : node ∈ nodes) :
    ∀ d ∈ attachedDemands node, Demanded definitions nodes d := by
  intro d hd
  rcases mem_attachedDemands.mp hd with ⟨uri, hu, reference, hr, rfl⟩ | ⟨child, hc, ns, hd⟩
  · exact .inl ⟨node, h, .inl ⟨uri, hu, reference, hr, rfl⟩⟩
  · rcases hd with ⟨tag, hd⟩ | ⟨-, hd⟩
    · exact demanded_of_applies (.inline h hc ns tag) d hd
    · cases d with
      | assertion other =>
        obtain ⟨other, -⟩ := assertion_mem_demandsOf.mp hd
        rw [ns] at other
        cases other
      | reference uri =>
        obtain ⟨-, tag, rfl⟩ := reference_mem_demandsOf.mp hd
        exact .inl ⟨node, h, .inr ⟨child, hc, ns, tag, rfl⟩⟩

theorem warrants_demanded (definitions : Xml.Node) (nodes : List Xml.Node) :
    Warrants (inside definitions) (Demanded definitions nodes) (Asks definitions nodes) := by
  constructor
  · intro node demanded hint names
    obtain ⟨policy, applies, stands, ns⟩ := demanded
    exact ⟨policy, node, applies, stands, ns, names⟩
  · intro uri policy demanded found
    have declared := lookup_inside.mp found
    apply demanded_of_applies
    rcases demanded with ⟨node, hn, attaches⟩ | ⟨other, part, applies, stands, refers⟩
    · exact .attached hn attaches declared
    · exact .referred applies stands refers declared

/-- Where all is met that the elements demand, all is met that the policies demand that apply. -/
theorem met_of_applies {hints : Hints} (grows : Grows (inside definitions) .none hints)
    (attached : ∀ node ∈ nodes, ∀ d ∈ attachedDemands node, Met hints d)
    (h : Applies definitions nodes policy) : ∀ d ∈ demands policy.children, Met hints d := by
  have settled {id : String} {uri : String} {policy : Xml.Node} (met : Met hints (.reference uri))
      (same : identifier uri = id) (declared : Declares definitions id policy) :
      ∀ d ∈ demands policy.children, Met hints d := by
    have visited : id ∈ hints.visited := same ▸ met.resolve_left (same ▸ declared.id_ne_empty)
    exact grows.settled id visited List.not_mem_nil policy (lookup_inside.mpr declared)
  induction h with
  | inline hn hc ns tag =>
    intro d hd
    exact attached _ hn d (mem_attachedDemands.mpr (.inr ⟨_, hc, ns, .inl ⟨tag, hd⟩⟩))
  | attached hn attaches declared =>
    rcases attaches with ⟨uri, hu, reference, hr, same⟩ | ⟨child, hc, ns, tag, same⟩
    · exact settled (attached _ hn _ (mem_attachedDemands.mpr (.inl ⟨uri, hu, reference, hr, rfl⟩)))
        same declared
    · have other : child.tag ≠ "Policy" := by
        rw [tag]
        decide
      exact settled (attached _ hn _ (mem_attachedDemands.mpr (.inr ⟨child, hc, ns,
        .inr ⟨other, reference_mem_demandsOf.mpr ⟨ns, tag, rfl⟩⟩⟩))) same declared
  | referred _ stands refers declared ih =>
    obtain ⟨ns, tag, same⟩ := refers
    exact settled (ih _ (mem_demands_iff.mpr ⟨_, stands, reference_mem_demandsOf.mpr ⟨ns, tag, rfl⟩⟩))
      same declared

theorem sound_demands : Sound (Asks definitions nodes) ((nodes.flatMap attachedDemands).foldl
    (meet (follow (inside definitions) ((inside definitions).length + 1))) .none) := by
  have warrants := warrants_demanded definitions nodes
  refine warrants.foldl (warrants.follow _) _ ?_ ⟨List.nodup_nil, fun _ h => absurd h List.not_mem_nil⟩
  intro d hd
  obtain ⟨node, hn, hd⟩ := List.mem_flatMap.mp hd
  exact demanded_of_attached hn d hd

theorem nodup_hintsOf : (hintsOf (inside definitions) nodes).Nodup := by
  rw [hintsOf_eq]
  exact sound_demands.1

/-- The hints of elements are what the policies ask for that apply to them. -/
theorem mem_hintsOf_iff {hint : String} :
    hint ∈ hintsOf (inside definitions) nodes ↔ Asks definitions nodes hint := by
  rw [hintsOf_eq]
  constructor
  · exact sound_demands.2 hint
  · intro asked
    obtain ⟨policy, assertion, applies, stands, ns, names⟩ := asked
    have all : unvisited (inside definitions) .none < (inside definitions).length + 1 :=
      Nat.lt_succ_of_le (List.length_filter_le _ _)
    obtain ⟨grows, met⟩ := (follows_follow (inside definitions) _).foldl
      (nodes.flatMap attachedDemands) all
    have attached (node : Xml.Node) (hn : node ∈ nodes) (d : Demand) (hd : d ∈ attachedDemands node) :=
      met d (List.mem_flatMap.mpr ⟨node, hn, hd⟩)
    have demanded : .assertion assertion ∈ demands policy.children :=
      mem_demands_iff.mpr ⟨assertion, stands, assertion_mem_demandsOf.mpr ⟨ns, rfl⟩⟩
    exact met_of_applies grows attached applies _ demanded hint names

end Policy

/-! ## The hints of operations -/

namespace Interface

/-- The elements that say of an operation of a port type how it is called: the binding that
counts for it, and what that binding has for the operation and its messages. -/
def attachments (interface : Interface) (portType : QName) (name : String) : List Xml.Node :=
  let (binding, operation) := interface.bindingFor portType name
  binding.toList ++ operation.toList ++
    operation.toList.flatMap (·.childrenIn Vocabulary.wsdl ["input", "output"])

structure Hinted (interface : Interface) (portType : QName) (name : String) (hints : List String) :
    Prop where
  nodup : hints.Nodup
  mem_iff : ∀ hint, hint ∈ hints ↔
    Policy.Asks interface.definitions (interface.attachments portType name) hint

theorem hinted (location : String) (definitions : Xml.Node) (portType : QName) (name : String) :
    let interface := described location definitions
    interface.Hinted portType name (interface.hints (interface.bindingFor portType name).1
      (interface.bindingFor portType name).2) := by
  intro interface
  have parts : interface.hints (interface.bindingFor portType name).1
      (interface.bindingFor portType name).2
      = Policy.hintsOf (Policy.inside definitions) (interface.attachments portType name) := by
    unfold hints attachments
    cases interface.bindingFor portType name with
    | mk binding operation => cases operation <;> simp [interface, described, ofDescription]
  rw [parts]
  exact ⟨Policy.nodup_hintsOf, fun hint => Policy.mem_hintsOf_iff⟩

end Interface

namespace Compile

theorem MadeOf.hinted {S : Setting} {location : String} {definitions : Xml.Node} {p : PortOperation}
    {entry : String × Operation} (h : MadeOf S (.described location definitions) p entry) :
    entry.2.name = p.name ∧ (Interface.described location definitions).Hinted p.portType.1 p.name
      entry.2.securityHints := by
  obtain ⟨before, after, run⟩ := h.run
  unfold operationOf at run
  obtain ⟨_, _, -, run⟩ := runs_bind.mp run
  obtain ⟨_, _, -, run⟩ := runs_bind.mp run
  obtain ⟨made, -⟩ := runs_pure.mp run
  rw [made]
  exact ⟨rfl, Interface.hinted location definitions p.portType.1 p.name⟩

end Compile

namespace SchemaSet

/-- **The hints of an operation are what the policies ask for that apply to it**, each once,
however the policies refer to each other; and these are the hints in the catalog. -/
theorem hints_of_description {set : SchemaSet} {definitions : Xml.Node}
    (hd : set.definitions = some definitions) :
    let interface := Interface.described set.location definitions
    (∀ portType name, interface.Hinted portType name (interface.hints
      (interface.bindingFor portType name).1 (interface.bindingFor portType name).2)) ∧
    ∀ options c, (set.compile options).result = .ok c →
      (∀ o ∈ c.operations, ∃ p ∈ firsts interface.offered, o.name = p.name ∧
        interface.Hinted p.portType.1 p.name o.securityHints) ∧
      ∀ p ∈ firsts interface.offered, ∃ o ∈ c.operations, o.name = p.name ∧
        interface.Hinted p.portType.1 p.name o.securityHints := by
  intro interface
  refine ⟨Interface.hinted set.location definitions, fun options c h => ?_⟩
  obtain ⟨S, hs⟩ := exists_setting h
  obtain ⟨_, _, _, _, _, _, _, _, staged⟩ := exists_staged hs h
  obtain ⟨entries, made, operations⟩ := staged.operations_eq hd
  have perm := Compile.perm_byName entries
  rw [operations]
  constructor
  · intro o ho
    obtain ⟨entry, he, rfl⟩ := List.mem_map.mp (perm.mem_iff.mp ho)
    obtain ⟨p, hp, made⟩ := exists_of_forall₂ made entry he
    exact ⟨p, hp, made.hinted⟩
  · intro p hp
    obtain ⟨entry, he, made⟩ := exists_of_forall₂ made.flip p hp
    exact ⟨entry.2, perm.mem_iff.mpr (List.mem_map_of_mem he), made.hinted⟩

/-! ## Policies in a circle -/

def policyUri : String := "http://www.w3.org/ns/ws-policy"

def elementOf (uri tag : String) (attributes : List (String × String)) (children : List Xml.Node) :
    Xml.Node := ⟨uri, tag, attributes, [("", some "urn:t")], children, "", 1⟩

def referenceTo (uri : String) : Xml.Node := elementOf policyUri "PolicyReference" [("URI", uri)] []

def signing : Xml.Node :=
  elementOf "urn:s" "Signing" [] [elementOf policyUri "Policy" [] [elementOf "urn:s" "X509Token" [] []]]

def sealing : Xml.Node := elementOf "urn:s" "Sealing" [] []

/-- A policy that asks for signing in one of its alternatives, and refers to another policy. -/
def signed : Xml.Node := elementOf policyUri "Policy" [("Name", "signed")]
  [elementOf policyUri "ExactlyOne" [] [elementOf policyUri "All" [] [signing, referenceTo "#sealed"]]]

/-- A policy that refers back, and to one that there is not. -/
def sealed : Xml.Node := elementOf policyUri "Policy" [("Name", "sealed")]
  [referenceTo "#signed", referenceTo "#lost", sealing]

def circularBinding : Xml.Node := elementOf Vocabulary.wsdl "binding" [("type", "Weather")]
  [referenceTo "#signed", elementOf Vocabulary.wsdl "operation" [("name", "Forecast")] []]

def circular : Xml.Node := elementOf Vocabulary.wsdl "definitions" [("targetNamespace", "urn:t")]
  [elementOf Vocabulary.wsdl "portType" [("name", "Weather")]
    [elementOf Vocabulary.wsdl "operation" [("name", "Forecast")] []], circularBinding, signed, sealed]

def circularSet : SchemaSet := ⟨"memory:t.wsdl", [], some circular⟩

theorem asks_sealing {nodes : List Xml.Node} (h : circularBinding ∈ nodes) :
    Policy.Asks circular nodes "Sealing" := by
  have declaresSigned : Policy.Declares circular "signed" signed := Policy.lookup_inside.mp rfl
  have declaresSealed : Policy.Declares circular "sealed" sealed := Policy.lookup_inside.mp rfl
  have first : Policy.Applies circular nodes signed :=
    .attached h (.inr ⟨referenceTo "#signed", List.mem_cons_self, rfl, rfl, rfl⟩) declaresSigned
  have part : Policy.Part signed (referenceTo "#sealed") :=
    .inside List.mem_cons_self rfl rfl (.inside List.mem_cons_self rfl rfl
      (.child (List.mem_cons_of_mem _ List.mem_cons_self)))
  have second : Policy.Applies circular nodes sealed :=
    .referred first part ⟨rfl, rfl, rfl⟩ declaresSealed
  exact ⟨sealed, sealing, second, .child (by simp [sealed, elementOf]), rfl, .inl rfl⟩

/-- The second policy of the circle applies to the operation as well. -/
theorem circular_hinted : ∃ c, (circularSet.compile {}).result = .ok c ∧
    ∃ o ∈ c.operations, o.name = "Forecast" ∧ o.securityHints.Nodup ∧ "Sealing" ∈ o.securityHints := by
  obtain ⟨c, run⟩ := exists_ok (by decide +kernel :
    (circularSet.compile {}).result.toOption.isSome = true)
  have found : circularSet.definitions = some circular := rfl
  obtain ⟨-, hinted⟩ := (hints_of_description found).2 {} c run
  have counts : (firsts (Interface.described "memory:t.wsdl" circular).offered).map
      (fun p => (p.portType.1, p.name)) = [(forecastPort, "Forecast")] := by decide +kernel
  have one : (forecastPort, "Forecast") ∈
      (firsts (Interface.described "memory:t.wsdl" circular).offered).map fun p =>
        (p.portType.1, p.name) := counts ▸ List.mem_cons_self
  obtain ⟨p, hp, same⟩ := List.mem_map.mp one
  obtain ⟨portType, name⟩ := Prod.mk.inj same
  obtain ⟨o, ho, named, hints⟩ := hinted p hp
  rw [portType, name] at hints
  have bound : circularBinding ∈ (Interface.described "memory:t.wsdl" circular).attachments
      forecastPort "Forecast" := List.mem_cons_self
  exact ⟨c, run, o, ho, named.trans name, hints.nodup, (hints.mem_iff "Sealing").mpr (asks_sealing bound)⟩

end SchemaSet

end WsdlCatalog
