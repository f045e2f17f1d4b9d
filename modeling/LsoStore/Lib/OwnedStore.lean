import LsoStore.Lib.Runs

/-!
# A store whose entries are owned

A store keeps values under keys. A client acquires an entry before it works on
it and releases it when it is done, and in between the entry is the client's:
only its owner reads it, updates it or removes it. The store is of bounded size,
so it may drop entries when one is updated, but none that another client owns.

`Step` says what may become of the store in one call, and what the call is
answered. What an owner gets out of it is `session`: from a call that
acquires the entry on, and as long as the owner does not give it away, the value
is what the owner's own updates make of it and everybody else is turned away.
-/

namespace OwnedStore

/-- A value and who owns it. -/
structure Entry (ω ν : Type) where
  owner : Option ω
  value : ν
deriving DecidableEq

/-- The entries by their keys. -/
abbrev Store (κ ω ν : Type) := κ → Option (Entry ω ν)

/-- What a client may ask for. -/
inductive Op (ν : Type) where
  | acquire (create : Bool)
  | release
  | read
  | update (g : ν → ν)
  | remove

/-- What it is answered: that it is done, the value it asked for, or why not. -/
inductive Reply (ν : Type) where
  | done
  | value (v : ν)
  | missing
  | owned
  | failed
deriving DecidableEq

/-- One call, with its answer. -/
structure Call (κ ω ν : Type) where
  client : ω
  key : κ
  op : Op ν
  reply : Reply ν

section Store

variable {κ ω ν : Type} [DecidableEq κ] {s s' s'' : Store κ ω ν} {c : ω} {k q : κ}

/-- The store with `e` under `k`. -/
def Store.put (s : Store κ ω ν) (k : κ) (e : Entry ω ν) : Store κ ω ν :=
  Function.update s k (some e)

/-- The store without what is under `k`. -/
def Store.erase (s : Store κ ω ν) (k : κ) : Store κ ω ν := Function.update s k none

@[simp] theorem Store.put_self (s : Store κ ω ν) (k : κ) (e : Entry ω ν) : s.put k e k = some e :=
  Function.update_self ..

@[simp] theorem Store.erase_self (s : Store κ ω ν) (k : κ) : s.erase k k = none :=
  Function.update_self ..

theorem Store.put_of_ne (s : Store κ ω ν) (e : Entry ω ν) (h : q ≠ k) : s.put k e q = s q :=
  Function.update_of_ne h ..

theorem Store.put_eq_self {e : Entry ω ν} (h : s k = some e) : s.put k e = s := by
  rw [Store.put, ← h, Function.update_eq_self]

theorem Store.erase_of_ne (s : Store κ ω ν) (h : q ≠ k) : s.erase k q = s q :=
  Function.update_of_ne h ..

omit [DecidableEq κ] in
/-- Some entries are gone, none of them under `k` and none that another client
than `c` owns. -/
def Drops (c : ω) (k : κ) (s s' : Store κ ω ν) : Prop :=
  ∀ q, s' q = s q ∨
    (s' q = none ∧ q ≠ k ∧ ∃ e, s q = some e ∧ (e.owner = none ∨ e.owner = some c))

omit [DecidableEq κ] in
theorem Drops.refl (c : ω) (k : κ) (s : Store κ ω ν) : Drops c k s s := fun _ => .inl rfl

omit [DecidableEq κ] in
theorem Drops.trans (h : Drops c k s s') (h' : Drops c k s' s'') : Drops c k s s'' := by
  intro q
  rcases h' q with heq' | ⟨hnone', hne, e, he, howner⟩
  · rcases h q with heq | ⟨hnone, hrest⟩
    · exact .inl (heq'.trans heq)
    · exact .inr ⟨heq'.trans hnone, hrest⟩
  · rcases h q with heq | ⟨hnone, -⟩
    · exact .inr ⟨hnone', hne, e, heq ▸ he, howner⟩
    · rw [hnone] at he
      cases he

omit [DecidableEq κ] in
theorem Drops.self (h : Drops c k s s') : s' k = s k := by
  rcases h k with heq | ⟨-, hne, -⟩
  · exact heq
  · exact absurd rfl hne

omit [DecidableEq κ] in
/-- What another client owns stays. -/
theorem Drops.of_owner {c' : ω} {e : Entry ω ν} (h : Drops c k s s') (he : s q = some e)
    (howner : e.owner = some c') (hne : c' ≠ c) : s' q = some e := by
  rcases h q with heq | ⟨-, -, e', he', howner'⟩
  · exact heq.trans he
  · rw [he] at he'
    injection he' with he'
    subst he'
    rw [howner] at howner'
    rcases howner' with h | h
    · cases h
    · injection h with h
      exact absurd h hne

/-- One call. A new entry holds `new`. -/
inductive Step (new : ν) (s : Store κ ω ν) : Call κ ω ν → Store κ ω ν → Prop where
  | acquired {c : ω} {k : κ} {create : Bool} {v : ν} : s k = some ⟨none, v⟩ →
      Step new s ⟨c, k, .acquire create, .done⟩ (s.put k ⟨some c, v⟩)
  | created {c : ω} {k : κ} : s k = none →
      Step new s ⟨c, k, .acquire true, .done⟩ (s.put k ⟨some c, new⟩)
  | full {c : ω} {k : κ} : s k = none → Step new s ⟨c, k, .acquire true, .failed⟩ s
  | taken {c o : ω} {k : κ} {create : Bool} {v : ν} : s k = some ⟨some o, v⟩ →
      Step new s ⟨c, k, .acquire create, .owned⟩ s
  | missing {c : ω} {k : κ} {op : Op ν} : s k = none → op ≠ .acquire true →
      Step new s ⟨c, k, op, .missing⟩ s
  | foreign {c : ω} {k : κ} {op : Op ν} {e : Entry ω ν} : s k = some e → e.owner ≠ some c →
      (∀ create, op ≠ .acquire create) → Step new s ⟨c, k, op, .owned⟩ s
  | released {c : ω} {k : κ} {v : ν} : s k = some ⟨some c, v⟩ →
      Step new s ⟨c, k, .release, .done⟩ (s.put k ⟨none, v⟩)
  | read {c : ω} {k : κ} {v : ν} : s k = some ⟨some c, v⟩ →
      Step new s ⟨c, k, .read, .value v⟩ s
  | unread {c : ω} {k : κ} {v : ν} : s k = some ⟨some c, v⟩ →
      Step new s ⟨c, k, .read, .failed⟩ s
  | updated {c : ω} {k : κ} {g : ν → ν} {v : ν} {s' : Store κ ω ν} : s k = some ⟨some c, v⟩ →
      Drops c k s s' → Step new s ⟨c, k, .update g, .done⟩ (s'.put k ⟨some c, g v⟩)
  | dropped {c : ω} {k : κ} {g : ν → ν} {v : ν} {s' : Store κ ω ν} : s k = some ⟨some c, v⟩ →
      Drops c k s s' → Step new s ⟨c, k, .update g, .failed⟩ s'
  | removed {c : ω} {k : κ} {v : ν} : s k = some ⟨some c, v⟩ →
      Step new s ⟨c, k, .remove, .done⟩ (s.erase k)

/-- A call for another key leaves an entry alone, unless it is an update that
drops it. -/
theorem Step.elsewhere {new : ν} {x : Call κ ω ν} (h : Step new s x s') (hk : x.key ≠ k) :
    s' k = s k ∨ (∃ g, x.op = .update g) ∧
      ∃ e, s k = some e ∧ (e.owner = none ∨ e.owner = some x.client) := by
  have hdrop : ∀ {c : ω} {q : κ} {t : Store κ ω ν}, Drops c q s t →
      t k = s k ∨ ∃ e, s k = some e ∧ (e.owner = none ∨ e.owner = some c) := by
    intro c q t hdrops
    rcases hdrops k with heq | ⟨-, -, he⟩
    · exact .inl heq
    · exact .inr he
  cases h with
  | acquired _ => exact .inl (s.put_of_ne _ hk.symm)
  | created _ => exact .inl (s.put_of_ne _ hk.symm)
  | full _ => exact .inl rfl
  | taken _ => exact .inl rfl
  | missing _ _ => exact .inl rfl
  | foreign _ _ _ => exact .inl rfl
  | released _ => exact .inl (s.put_of_ne _ hk.symm)
  | read _ => exact .inl rfl
  | unread _ => exact .inl rfl
  | updated _ hdrops =>
      rcases hdrop hdrops with heq | he
      · exact .inl ((Store.put_of_ne _ _ hk.symm).trans heq)
      · exact .inr ⟨⟨_, rfl⟩, he⟩
  | dropped _ hdrops =>
      rcases hdrop hdrops with heq | he
      · exact .inl heq
      · exact .inr ⟨⟨_, rfl⟩, he⟩
  | removed _ => exact .inl (s.erase_of_ne hk.symm)

/-- Who acquires an entry owns it, with what was there or as a new one. -/
theorem Step.of_acquire {new : ν} {create : Bool}
    (h : Step new s ⟨c, k, .acquire create, .done⟩ s') :
    s' k = some ⟨some c, ((s k).map Entry.value).getD new⟩ := by
  cases h with
  | acquired hfree => rw [Store.put_self, hfree, Option.map_some, Option.getD_some]
  | created hnone => rw [Store.put_self, hnone, Option.map_none, Option.getD_none]

/-- Who does not own an entry is told so, and nothing else happens. -/
theorem Step.of_foreign {new v : ν} {x : Call κ ω ν} (h : Step new s x s')
    (hown : s x.key = some ⟨some c, v⟩) (hne : x.client ≠ c) : s' = s ∧ x.reply = .owned := by
  have hmine : ∀ {u : ν}, s x.key ≠ some ⟨some x.client, u⟩ := by
    intro u hu
    rw [hown] at hu
    injection hu with hu
    injection hu with ho
    injection ho with ho
    exact hne ho.symm
  have hthere : s x.key ≠ none := fun hnone => by
    rw [hnone] at hown
    cases hown
  have hheld : ∀ {u : ν}, s x.key ≠ some ⟨none, u⟩ := by
    intro u hu
    rw [hown] at hu
    injection hu with hu
    injection hu with ho
    cases ho
  cases h with
  | acquired hfree => exact absurd hfree hheld
  | created hnone => exact absurd hnone hthere
  | full hnone => exact absurd hnone hthere
  | taken _ => exact ⟨rfl, rfl⟩
  | missing hnone _ => exact absurd hnone hthere
  | foreign _ _ _ => exact ⟨rfl, rfl⟩
  | released hq => exact absurd hq hmine
  | read hq => exact absurd hq hmine
  | unread hq => exact absurd hq hmine
  | updated hq _ => exact absurd hq hmine
  | dropped hq _ => exact absurd hq hmine
  | removed hq => exact absurd hq hmine

end Store

/-! ## Calls that find room -/

section Result

variable {κ ω ν : Type} [DecidableEq κ] [DecidableEq ω] {new v : ν} {s : Store κ ω ν} {c o : ω}
  {k : κ} {op : Op ν} {e : Entry ω ν}

/-- The answer to the owner of an entry and the store after it. -/
def Op.ownResult (s : Store κ ω ν) (c : ω) (k : κ) (v : ν) : Op ν → Reply ν × Store κ ω ν
  | .acquire _ => (.owned, s)
  | .release => (.done, s.put k ⟨none, v⟩)
  | .read => (.value v, s)
  | .update g => (.done, s.put k ⟨some c, g v⟩)
  | .remove => (.done, s.erase k)

/-- The answer to a call and the store after it, if there is room and nothing has
to be dropped. -/
def Op.result (new : ν) (s : Store κ ω ν) (c : ω) (k : κ) (op : Op ν) : Reply ν × Store κ ω ν :=
  match s k with
  | none =>
      match op with
      | .acquire true => (.done, s.put k ⟨some c, new⟩)
      | _ => (.missing, s)
  | some ⟨none, v⟩ =>
      match op with
      | .acquire _ => (.done, s.put k ⟨some c, v⟩)
      | _ => (.owned, s)
  | some ⟨some o, v⟩ => if o = c then op.ownResult s c k v else (.owned, s)

theorem Op.result_created (h : s k = none) :
    (acquire true).result new s c k = (.done, s.put k ⟨some c, new⟩) := by
  rw [result.eq_def, h]

theorem Op.result_missing (h : s k = none) (hop : op ≠ acquire true) :
    op.result new s c k = (.missing, s) := by
  rw [result.eq_def, h]
  cases op with
  | acquire create =>
      cases create with
      | false => rfl
      | true => exact absurd rfl hop
  | release => rfl
  | read => rfl
  | update g => rfl
  | remove => rfl

theorem Op.result_acquired {create : Bool} (h : s k = some ⟨none, v⟩) :
    (acquire create).result new s c k = (.done, s.put k ⟨some c, v⟩) := by
  rw [result.eq_def, h]

theorem Op.result_own (h : s k = some ⟨some c, v⟩) :
    op.result new s c k = op.ownResult s c k v := by
  rw [result.eq_def, h]
  exact if_pos rfl

theorem Op.result_taken {create : Bool} (h : s k = some ⟨some o, v⟩) :
    (acquire create).result new s c k = (.owned, s) := by
  by_cases ho : o = c
  · subst ho
    exact result_own h
  · rw [result.eq_def, h]
    exact if_neg ho

theorem Op.result_foreign (h : s k = some e) (howner : e.owner ≠ some c)
    (hop : ∀ create, op ≠ acquire create) : op.result new s c k = (.owned, s) := by
  obtain ⟨owner, v⟩ := e
  cases owner with
  | none =>
      rw [result.eq_def, h]
      cases op with
      | acquire create => exact absurd rfl (hop create)
      | release => rfl
      | read => rfl
      | update g => rfl
      | remove => rfl
  | some o =>
      rw [result.eq_def, h]
      exact if_neg fun ho => howner (congrArg some ho)

/-- One call after the other, all of the same client. -/
def perform (new : ν) (c : ω) (calls : List (κ × Op ν)) (s : Store κ ω ν) :
    List (Reply ν) × Store κ ω ν :=
  callAll (fun s x => x.2.result new s c x.1) s calls

end Result

/-! ## Sessions -/

section Session

variable {κ ω ν : Type} [DecidableEq κ] [DecidableEq ω] {s s' : Store κ ω ν} {c : ω} {k : κ}
  {new v : ν} {x : Call κ ω ν}

omit [DecidableEq κ] [DecidableEq ω] in
/-- A call of the owner after which the entry need not be its own any more: it
gives the entry away, or updates another one. -/
def Call.MayEnd (x : Call κ ω ν) (c : ω) (k : κ) : Prop :=
  x.client = c ∧ ((x.key = k ∧ x.reply = .done ∧ (x.op = .release ∨ x.op = .remove)) ∨
    (x.key ≠ k ∧ ∃ g, x.op = .update g))

/-- What a call makes of the value that `c` owns under `k`. -/
def Call.valueAfter (c : ω) (k : κ) (v : ν) (x : Call κ ω ν) : ν :=
  match x.op, x.reply with
  | .update g, .done => if x.client = c ∧ x.key = k then g v else v
  | _, _ => v

/-- The value after some calls. -/
def valueAfter (c : ω) (k : κ) (v : ν) (calls : List (Call κ ω ν)) : ν :=
  calls.foldl (Call.valueAfter c k) v

theorem Call.valueAfter_of_ne (h : ¬ (x.client = c ∧ x.key = k)) : x.valueAfter c k v = v := by
  rw [valueAfter]
  split
  · exact if_neg h
  · rfl

/-- What an answer says while `c` owns `v` under `k`: everybody else is turned
away, and who reads the entry gets the value. -/
structure Call.Sees (x : Call κ ω ν) (c : ω) (k : κ) (v : ν) : Prop where
  foreign : x.key = k → x.client ≠ c → x.reply = .owned
  value : ∀ u, x.key = k → x.reply = .value u → u = v

/-- A call of the owner. -/
theorem Step.of_owner (h : Step new s x s') (hown : s x.key = some ⟨some x.client, v⟩)
    (hkeeps : ¬ x.MayEnd x.client x.key) :
    s' x.key = some ⟨some x.client, x.valueAfter x.client x.key v⟩ ∧
      ∀ u, x.reply = .value u → u = v := by
  have hvalue : ∀ {u : ν}, s x.key = some ⟨some x.client, u⟩ → u = v := by
    intro u hu
    rw [hown] at hu
    injection hu with hu
    injection hu with _ hv
    exact hv.symm
  have hthere : s x.key ≠ none := fun hnone => by
    rw [hnone] at hown
    cases hown
  have hheld : ∀ {u : ν}, s x.key ≠ some ⟨none, u⟩ := by
    intro u hu
    rw [hown] at hu
    injection hu with hu
    injection hu with ho
    cases ho
  cases h with
  | acquired hfree => exact absurd hfree hheld
  | created hnone => exact absurd hnone hthere
  | full hnone => exact absurd hnone hthere
  | taken _ => exact ⟨hown, fun _ hu => by cases hu⟩
  | missing hnone _ => exact absurd hnone hthere
  | foreign he hne _ =>
      dsimp only at hown
      rw [hown] at he
      injection he with he
      exact absurd (he ▸ rfl) hne
  | released _ => exact absurd ⟨rfl, .inl ⟨rfl, rfl, .inl rfl⟩⟩ hkeeps
  | read hq =>
      refine ⟨hown, fun u hu => ?_⟩
      injection hu with hu
      exact hu ▸ hvalue hq
  | unread _ => exact ⟨hown, fun _ hu => by cases hu⟩
  | updated hq _ =>
      refine ⟨?_, fun _ hu => by cases hu⟩
      rw [Store.put_self, hvalue hq]
      simp [Call.valueAfter]
  | dropped _ hdrops => exact ⟨hdrops.self.trans hown, fun _ hu => by cases hu⟩
  | removed _ => exact absurd ⟨rfl, .inl ⟨rfl, rfl, .inr rfl⟩⟩ hkeeps

/-- One call while `c` owns the entry under `k`. -/
theorem Step.session (h : Step new s x s') (hown : s k = some ⟨some c, v⟩)
    (hkeeps : ¬ x.MayEnd c k) :
    s' k = some ⟨some c, x.valueAfter c k v⟩ ∧ x.Sees c k v := by
  by_cases hk : x.key = k
  · subst hk
    by_cases hc : x.client = c
    · subst hc
      obtain ⟨hs', hvalue⟩ := h.of_owner hown hkeeps
      exact ⟨hs', fun _ hne => absurd rfl hne, fun u _ => hvalue u⟩
    · obtain ⟨rfl, hreply⟩ := h.of_foreign hown hc
      rw [Call.valueAfter_of_ne fun hx => hc hx.1]
      refine ⟨hown, fun _ _ => hreply, fun u _ hu => ?_⟩
      rw [hreply] at hu
      cases hu
  · rw [Call.valueAfter_of_ne fun hx => hk hx.2]
    refine ⟨?_, fun heq => absurd heq hk, fun _ heq => absurd heq hk⟩
    rcases h.elsewhere hk with heq | ⟨hupdate, e, he, howner⟩
    · exact heq.trans hown
    · -- only an update of the owner itself could have dropped the entry
      rw [hown] at he
      injection he with he
      subst he
      rcases howner with howner | howner
      · cases howner
      · injection howner with howner
        exact absurd ⟨howner.symm, .inr ⟨hk, hupdate⟩⟩ hkeeps

/-- While `c` owns the entry under `k` and does not give it away, the value is
what its own updates make of it, and that is what every read finds. -/
theorem session {init : Store κ ω ν → Prop} {past : List (Call κ ω ν × Store κ ω ν)}
    (h : Run init (fun s x s' => Step new s x s') past s')
    (hinit : ∀ s, init s → s k = some ⟨some c, v⟩) (hkeeps : ∀ e ∈ past, ¬ e.1.MayEnd c k) :
    s' k = some ⟨some c, valueAfter c k v (past.map Prod.fst)⟩ ∧
      ∀ front e behind, past = front ++ e :: behind →
        e.1.Sees c k (valueAfter c k v (front.map Prod.fst)) :=
  h.tracks (fun v s => s k = some ⟨some c, v⟩) (fun x => ¬ x.MayEnd c k)
    (fun x v => x.Sees c k v) (Call.valueAfter c k) hinit hkeeps
    fun _ _ _ _ hown hkeeps hstep => hstep.session hown hkeeps

end Session

/-! ## Many clients at once

Between the moment a client finds out that an entry is its own and the moment it
updates it, others may make their calls. What has to be dropped for the update
is dropped in a turn of its own, before them. -/

section Turn

variable {κ ω ν : Type} [DecidableEq κ] [DecidableEq ω] {s s' : Store κ ω ν} {c : ω} {k : κ}
  {new v : ν}

/-- A call, or room made by `c` for the entry under `k`. -/
inductive Action (κ ω ν : Type) where
  | call (x : Call κ ω ν)
  | room (c : ω) (k : κ)

/-- The call that an action is. -/
def Action.toCall : Action κ ω ν → Option (Call κ ω ν)
  | .call x => some x
  | .room _ _ => none

omit [DecidableEq ω] in
/-- What may become of the store in one of them. -/
inductive Turn (new : ν) (s : Store κ ω ν) : Action κ ω ν → Store κ ω ν → Prop where
  | call {x : Call κ ω ν} {s' : Store κ ω ν} : Step new s x s' → Turn new s (.call x) s'
  | room {c : ω} {k : κ} {s' : Store κ ω ν} : Drops c k s s' → Turn new s (.room c k) s'

/-- After such an action of its own the entry need not be the owner's any more. -/
def Action.MayEnd (c : ω) (k : κ) : Action κ ω ν → Prop
  | .call x => x.MayEnd c k
  | .room c' k' => c' = c ∧ k' ≠ k

/-- What an action makes of the value that `c` owns under `k`. -/
def Action.valueAfter (c : ω) (k : κ) (v : ν) : Action κ ω ν → ν
  | .call x => x.valueAfter c k v
  | .room _ _ => v

def Action.Sees (c : ω) (k : κ) (v : ν) : Action κ ω ν → Prop
  | .call x => x.Sees c k v
  | .room _ _ => True

theorem Turn.session {e : Action κ ω ν} (h : Turn new s e s') (hown : s k = some ⟨some c, v⟩)
    (hkeeps : ¬ e.MayEnd c k) :
    s' k = some ⟨some c, e.valueAfter c k v⟩ ∧ e.Sees c k v := by
  cases h with
  | call hstep => exact hstep.session hown hkeeps
  | @room c' k' _ hdrops =>
      refine ⟨?_, trivial⟩
      by_cases hk : k' = k
      · subst hk
        exact hdrops.self.trans hown
      · exact hdrops.of_owner hown rfl fun hc => hkeeps ⟨hc.symm, hk⟩

/-- `session`, with other clients in between the parts of an update. -/
theorem turns_session {init : Store κ ω ν → Prop} {past : List (Action κ ω ν × Store κ ω ν)}
    (h : Run init (fun s e s' => Turn new s e s') past s')
    (hinit : ∀ s, init s → s k = some ⟨some c, v⟩) (hkeeps : ∀ e ∈ past, ¬ e.1.MayEnd c k) :
    s' k = some ⟨some c, (past.map Prod.fst).foldl (Action.valueAfter c k) v⟩ ∧
      ∀ front e behind, past = front ++ e :: behind →
        e.1.Sees c k ((front.map Prod.fst).foldl (Action.valueAfter c k) v) :=
  h.tracks (fun v s => s k = some ⟨some c, v⟩) (fun e => ¬ e.MayEnd c k)
    (fun e v => e.Sees c k v) (Action.valueAfter c k) hinit hkeeps
    fun _ _ _ _ hown hkeeps hturn => hturn.session hown hkeeps

end Turn

end OwnedStore
