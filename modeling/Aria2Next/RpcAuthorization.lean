/-
Every handler but the two that are open to all runs only for a call with the
token, and without the token the engine does not show in the answers.

Both are facts about a step of the dispatcher that answers some calls, and such
steps compose; so each function of the dispatcher is one lemma.
-/
import Aria2Next.RpcServer

namespace Aria2Next.Rpc

open Text List

universe u

variable {S : Type u}

/-- The first parameter is `token:` and exactly the secret. -/
def Call.Carries (call : Call) (secret : Text) : Prop :=
  ∃ rest, call.params = .string (of "token:" ++ secret) :: rest

/-- A call whose handler may run. -/
def Call.Allowed (call : Call) (secret : Text) : Prop :=
  isOpen call.name = true ∨ call.Carries secret

/-- The calls in a `system.multicall`. -/
def Call.nested (call : Call) : List Call :=
  if call.name = multicall then
    ((multicallItems (strip call.params).2).getD []).filterMap nestedCall
  else []

/-- The calls of one request object. -/
def objectCalls (request : Json) : List Call :=
  match requestCall request with
  | .error _ => []
  | .ok call => call :: call.nested

/-- The calls of a request or a batch. -/
def calls : Json → List Call
  | .array batch => batch.flatMap objectCalls
  | request => objectCalls request

/-- A step that answers `calls`: it keeps the secret, runs handlers only for
calls among these that are allowed, and does not show the engine when none of
them carries the token. -/
structure Obeys {A : Type} (secret : Text) (calls : List Call)
    (step : Host S → A × Host S) : Prop where
  keeps : ∀ host, host.secret = secret → (step host).2.secret = secret
  runs : ∀ host, host.secret = secret → ∃ more, (step host).2.ran = host.ran ++ more ∧
      ∀ call ∈ more, call ∈ calls ∧ call.Allowed secret
  blind : (∀ call ∈ calls, ¬ call.Carries secret) → ∀ left right,
    left.secret = secret → right.secret = secret → (step left).1 = (step right).1

namespace Obeys

variable {A C : Type} {s : Text} {l o : List Call}

/-- An answer without any handler. -/
theorem pure (a : A) : Obeys s l fun host : Host S => (a, host) where
  keeps _ hs := hs
  runs _ _ := ⟨[], (append_nil _).symm, fun _ h => absurd h not_mem_nil⟩
  blind _ _ _ _ _ := rfl

variable {step : Host S → A × Host S}

theorem mono (hs : Obeys s l step) (hsu : l ⊆ o) : Obeys s o step where
  keeps := hs.keeps
  runs host hse := by
    obtain ⟨m, hr, hm⟩ := hs.runs host hse
    exact ⟨m, hr, fun c h =>
      ⟨hsu (hm c h).1, (hm c h).2⟩⟩
  blind hsi := hs.blind fun c h => hsi c (hsu h)

/-- One step after the other. -/
theorem bind {first : Host S → A × Host S} {next : A → Host S → C × Host S} (hf : Obeys s l first)
    (hn : ∀ a, Obeys s l (next a)) : Obeys s l fun host => next (first host).1 (first host).2 where
  keeps host hs := (hn _).keeps _ (hf.keeps host hs)
  runs host hs := by
    obtain ⟨more, hra, hm⟩ := hf.runs host hs
    obtain ⟨more', hr', hm'⟩ := (hn (first host).1).runs (first host).2 (hf.keeps host hs)
    refine ⟨more ++ more', ?_, ?_⟩
    · rw [hr', hra, append_assoc]
    · intro c hc
      rcases mem_append.mp hc with h | h
      · exact hm c h
      · exact hm' c h
  blind hsi left right hl hr := by
    rw [hf.blind hsi left right hl hr]
    exact (hn _).blind hsi _ _ (hf.keeps left hl) (hf.keeps right hr)

theorem congr {next : Host S → A × Host S} (hst : Obeys s l step)
    (he : ∀ host, host.secret = s → next host = step host) : Obeys s l next where
  keeps host hs := by
    rw [he host hs]
    exact hst.keeps host hs
  runs host hs := by
    rw [he host hs]
    exact hst.runs host hs
  blind hsi left right hl hr := by
    rw [he left hl, he right hr]
    exact hst.blind hsi left right hl hr

theorem map (hs : Obeys s l step) (f : A → C) :
    Obeys s l fun host => (f (step host).1, (step host).2) :=
  hs.bind fun a => pure (f a)

/-- The answers to a list. -/
theorem answers {I : Type} {st : Host S → I → Json × Host S} {c : I → List Call} (i : List I)
    (hs : ∀ it ∈ i, Obeys s (c it) (st · it)) : Obeys s (i.flatMap c) (answers st · i) := by
  induction i with
  | nil => exact pure []
  | cons head t ih =>
    have hh : Obeys s ((head :: t).flatMap c) (st · head) :=
      (hs head mem_cons_self).mono (by rw [flatMap_cons]; exact subset_append_left _ _)
    have ht : Obeys s ((head :: t).flatMap c) (Rpc.answers st · t) :=
      (ih fun it h => hs it (mem_cons_of_mem _ h)).mono
        (by rw [flatMap_cons]; exact subset_append_right _ _)
    exact hh.bind fun a => ht.map (a :: ·)

end Obeys

theorem foldl_or_eq_zero (f : Nat → UInt8) (l : List Nat) (s : UInt8) :
    l.foldl (fun d i => d ||| f i) s = 0 ↔ s = 0 ∧ ∀ i ∈ l, f i = 0 := by
  induction l generalizing s with
  | nil => simp
  | cons head t ih =>
    rw [foldl_cons, ih, UInt8.or_eq_zero_iff, forall_mem_cons, and_assoc]

variable {s : Text} {params p : List Json}

/-- The comparison is equality. -/
theorem sameSecret_iff (g : Text) (hs : s ≠ []) : sameSecret g s = true ↔ g = s := by
  have hp : 0 < s.length := length_pos_iff.mpr hs
  rw [sameSecret, beq_iff_eq, foldl_or_eq_zero]
  constructor
  · rintro ⟨hl, hby⟩
    replace hl : g.length = s.length := by
      by_contra hn
      simp [hn] at hl
    apply ext_getElem hl
    intro i hle hr
    have hb := hby i (mem_range.mpr hle)
    rw [max_eq_left hp, Nat.mod_eq_of_lt hr] at hb
    simpa [hle, hr] using hb
  · rintro rfl
    refine ⟨if_pos rfl, fun i hi => ?_⟩
    rw [max_eq_left hp, Nat.mod_eq_of_lt (mem_range.mp hi), UInt8.xor_eq_zero_iff]

theorem strip_token (hs : s ≠ []) (ht : (strip p).1 = s) :
    ∃ r, p = .string (of "token:" ++ s) :: r := by
  rw [strip.eq_def] at ht
  split at ht
  · split at ht
    · rename_i v r hst
      obtain ⟨t, rfl⟩ := isPrefixOf_iff_prefix.mp hst
      have hl : (of "token:").length = 6 := by decide +kernel
      rw [← hl, drop_left] at ht
      exact ⟨r, by rw [← ht]⟩
    · exact absurd ht.symm hs
  · exact absurd ht.symm hs

/-- What passes is stripped, and was allowed. -/
theorem authorize_ok {c : Call} (ho : authorize s c.name c.params = .ok p) :
    p = (strip c.params).2 ∧ (s ≠ [] → c.name ≠ multicall → c.Allowed s) := by
  rw [authorize] at ho
  dsimp only at ho
  split at ho
  · simp at ho
  rename_i hp
  split at ho
  · simp at ho
  refine ⟨(Except.ok.inj ho).symm, fun hs hn => ?_⟩
  rcases hop : isOpen c.name with _ | _
  · right
    apply strip_token hs
    rw [← sameSecret_iff _ hs]
    by_contra hw
    rw [Bool.not_eq_true] at hw
    exact hp ⟨hop, hn, hs, hw⟩
  · exact .inl hop

namespace Dispatcher

variable (d : Dispatcher S) {s : Text}

/-- The handlers open to all do not look at the engine. -/
theorem find_open {n : Text} (ho : isOpen n = true) {e : Text × Method S}
    (hf : d.methods.find? (fun e => e.1 = n) = some e) (p : List Json) :
    ∃ a, ∀ s, e.2 p s = (a, s) := by
  have hs : n ∈ systemNames := by
    rcases Bool.or_eq_true_iff.mp ho with h | h <;> simp [systemNames, of_decide_eq_true h]
  have hm := mem_of_find?_eq_some hf
  have hn : e.1 = n := by simpa using List.find?_some hf
  rcases mem_append.mp hm with h | h
  · exact absurd (hn ▸ hs) (d.registered_names e h)
  · simp only [mem_cons, not_mem_nil, or_false] at h
    rcases h with rfl | rfl <;> exact ⟨_, fun _ => rfl⟩

theorem invokeMethod_obeys (hs : s ≠ []) (c : Call) (hn : c.name ≠ multicall) :
    Obeys s [c] (d.invokeMethod · c) := by
  constructor
  · rintro host rfl
    rw [invokeMethod]
    split
    · rfl
    · split <;> rfl
  · rintro host rfl
    rw [invokeMethod]
    split
    · exact (Obeys.pure _).runs host rfl
    · rename_i p hok
      split
      · exact (Obeys.pure _).runs host rfl
      · refine ⟨[c], rfl, fun o ho => ?_⟩
        refine ⟨ho, ?_⟩
        rw [mem_singleton.mp ho]
        exact (authorize_ok hok).2 hs hn
  · rintro hsi left right rfl hr
    rw [invokeMethod, invokeMethod, hr]
    rcases hok : authorize left.secret c.name c.params with
      message | p
    · rfl
    cases hf : d.methods.find? fun e => e.1 = c.name with
    | none => rfl
    | some e =>
      rcases (authorize_ok hok).2 hs hn with hop | hc
      · obtain ⟨answer, ha⟩ := d.find_open hop hf p
        simp only [Host.run, ha]
      · exact absurd hc (hsi c (mem_singleton_self c))

variable {call c : Call}

theorem nestedCall_name {i : Json} (hc : nestedCall i = some c) : c.name ≠ multicall := by
  rw [nestedCall.eq_def] at hc
  split at hc
  · split at hc
    · simp at hc
    · rename_i hn
      rw [← Option.some.inj hc]
      exact hn
  · simp at hc

theorem multicallItem_obeys (hs : s ≠ []) (item : Json) :
    Obeys s (nestedCall item).toList (d.multicallItem · item) := by
  rcases hc : nestedCall item with _ | call
  · exact (Obeys.pure _).congr fun host _ => by rw [multicallItem, hc]
  · apply ((d.invokeMethod_obeys hs call (nestedCall_name hc)).map multicallEntry).congr
    intro host _
    rw [multicallItem, hc]

theorem invoke_obeys (hs : s ≠ []) (c : Call) : Obeys s (c :: c.nested) (d.invoke · c) := by
  by_cases hn : c.name = multicall
  · rcases hok : authorize s c.name c.params with message | params
    · apply (Obeys.pure (.error message)).congr
      rintro host rfl
      rw [invoke, if_pos hn, hok]
    obtain ⟨rfl, _⟩ := authorize_ok hok
    rcases hi : multicallItems (strip c.params).2 with _ | items
    · apply (Obeys.pure (.error (of "system.multicall expects an array"))).congr
      rintro host rfl
      rw [invoke, if_pos hn, hok]
      simp only [hi]
    · have hob : Obeys s (items.flatMap fun item =>
          (nestedCall item).toList)
          (answers d.multicallItem · items) :=
        Obeys.answers items fun item _ =>
          d.multicallItem_obeys hs item
      apply ((hob.mono _).map fun r => .ok (.array r)).congr
      · rintro host rfl
        rw [invoke, if_pos hn, hok]
        simp only [hi]
      · intro o ho
        rw [Call.nested, if_pos hn, hi]
        apply mem_cons_of_mem
        obtain ⟨item, hite, hne⟩ := mem_flatMap.mp ho
        exact mem_filterMap.mpr ⟨item, hite, Option.mem_toList.mp hne⟩
  · apply (d.invokeMethod_obeys hs c hn).mono _ |>.congr
    · intro host _
      rw [invoke, if_neg hn]
    · intro o ho
      rw [mem_singleton.mp ho]
      exact mem_cons_self

theorem call_obeys (hs : s ≠ []) (r : Json) : Obeys s (objectCalls r) (d.call · r) := by
  rw [objectCalls]
  rcases hc : requestCall r with document | call
  · exact (Obeys.pure document).congr fun host _ => by rw [call, hc]
  · apply ((d.invoke_obeys hs call).map (replied (requestId r))).congr
    intro host _
    rw [Dispatcher.call, hc]

theorem handle_obeys (hs : s ≠ []) (r : Json) : Obeys s (calls r) (d.handle · r) := by
  cases r with
  | array b =>
    have hi : ∀ i ∈ b, Obeys s (objectCalls i)
        fun host : Host S => if i.isObject then d.call host i
          else (invalidRequest, host) := by
      intro i _
      split
      · exact d.call_obeys hs i
      · exact .pure invalidRequest
    exact (Obeys.answers b hi).map Json.array
  | object m => exact d.call_obeys hs (.object m)
  | _ => exact .pure invalidRequest

/-- A request for an asynchronous method is an object. -/
theorem mem_calls {r : Json} (hc : requestCall r = .ok c) : c ∈ calls r := by
  have ho : calls r = objectCalls r := by
    cases r with
    | array b => simp [requestCall, Json.member] at hc
    | _ => rfl
  rw [ho, objectCalls, hc]
  exact mem_cons_self

theorem invokeAsync_obeys (hs : s ≠ []) (id : Json) (c : Call) (method : AsyncMethod S)
    (hn : c.name ∉ systemNames) :
    Obeys s [c] fun host : Host S => host.invokeAsync id c method := by
  simp only [systemNames, mem_cons, not_mem_nil, or_false, not_or] at hn
  obtain ⟨hm, hl⟩ := hn
  have hc : ∀ {params}, authorize s c.name c.params =
      .ok params → c.Carries s := by
    intro params ho
    rcases (authorize_ok ho).2 hs hm with hop | hc
    · simp [isOpen, hl] at hop
    · exact hc
  rcases ho : authorize s c.name c.params with message | params
  · apply (Obeys.pure (.document (replied id (.error message)))).congr
    rintro host rfl
    rw [Host.invokeAsync, ho]
  · constructor
    · rintro host rfl
      rw [Host.invokeAsync, ho]
      rfl
    · rintro host rfl
      rw [Host.invokeAsync, ho]
      refine ⟨[c], rfl, fun o hot => ⟨hot, .inr ?_⟩⟩
      rw [mem_singleton.mp hot]
      exact hc ho
    · intro hsi
      exact absurd (hc ho) (hsi c (mem_singleton_self c))

theorem respond_obeys (hs : s ≠ []) (r : Json) : Obeys s (calls r) (d.respond · r) := by
  have hh := (d.handle_obeys hs r).map Response.document
  rcases hc : requestCall r with document | call
  · exact hh.congr fun host _ => by simp only [respond, hc]
  cases hf : d.asyncMethods.find? fun e =>
      e.1 = call.name with
  | none => exact hh.congr fun host _ => by simp only [respond, hc, hf]
  | some e =>
    have hn : call.name ∉ systemNames := by
      have he : e.1 = call.name := by simpa using List.find?_some hf
      rw [← he]
      exact d.async_names e (mem_of_find?_eq_some hf)
    apply ((invokeAsync_obeys hs (requestId r) call e.2 hn).mono _).congr
    · intro host _
      simp only [respond, hc, hf]
    · intro o ho
      rw [mem_singleton.mp ho]
      exact mem_calls hc

end Dispatcher

/-- The calls of a body. -/
def bodyCalls (wire : Wire) (request : Request) : List Call :=
  ((wire.decode request).map calls).getD []

theorem serve_obeys (w : Wire) (d : Dispatcher S) (hs : s ≠ []) (r : Request) :
    Obeys s (bodyCalls w r) (serve w d · r) := by
  rw [bodyCalls]
  rcases hde : w.decode r with _ | value
  · cases r with
    | json body =>
      apply (Obeys.pure (.text (w.encode (failure .null (-32700) (of "Parse error."))))).congr
      intro host _
      simp only [serve, hde]
    | xml body =>
      apply (Obeys.pure .badRequest).congr
      intro host _
      simp only [serve, hde]
  · have hr := d.respond_obeys hs value
    cases r with
    | json body =>
      apply (hr.map fun re => re.map w.encode).congr
      intro host _
      simp only [serve, hde]
    | xml body =>
      apply (hr.map fun re => re.map fun dc =>
        w.encodeResponse dc (isMulticall value)).congr
      intro host _
      simp only [serve, hde]

/-- With a secret, the handlers that run for a body do so for calls of it that
carry the token, those open to all apart; and a body in which no call carries
it gets the same answer whatever the engine is. -/
theorem serve_authorized (wire : Wire) (dispatcher : Dispatcher S) {secret : Text}
    (hsecret : secret ≠ []) (request : Request) :
    (∀ host : Host S, host.secret = secret → ∃ more,
      (serve wire dispatcher host request).2.ran = host.ran ++ more ∧
        ∀ call ∈ more, call ∈ bodyCalls wire request ∧
          (call.name = listMethods ∨ call.name = listNotifications ∨ call.params.head? =
              some (.string (Text.of "token:" ++ secret)))) ∧
      ((∀ call ∈ bodyCalls wire request, call.params.head? ≠
          some (.string (Text.of "token:" ++ secret))) →
        ∀ left right : Host S, left.secret = secret → right.secret = secret →
          (serve wire dispatcher left request).1 = (serve wire dispatcher right request).1) := by
  have hobeys := serve_obeys wire dispatcher hsecret request
  constructor
  · intro host hhost
    obtain ⟨more, hran, hmore⟩ := hobeys.runs host hhost
    refine ⟨more, hran, fun call hcall => ?_⟩
    obtain ⟨hmem, hopen | ⟨rest, hparams⟩⟩ := hmore call hcall
    · rcases Bool.or_eq_true_iff.mp hopen with h | h
      · exact ⟨hmem, .inl (of_decide_eq_true h)⟩
      · exact ⟨hmem, .inr (.inl (of_decide_eq_true h))⟩
    · exact ⟨hmem, .inr (.inr (by rw [hparams]; rfl))⟩
  · intro hsilent
    apply hobeys.blind
    rintro call hcall ⟨rest, hparams⟩
    exact hsilent call hcall (by rw [hparams]; rfl)

/-- A body that stands for `request`. -/
def plainWire (request : Json) : Wire :=
  ⟨fun _ => some request, fun _ => [], fun _ => .error [], fun _ => none, fun _ _ => []⟩

/-- Without the token, `aria2.pauseAll` in a `system.multicall` is refused in
the same words by a fresh engine and by a busy one. -/
theorem serve_authorized_pauseAll :
    let dispatcher := registerMethods
      (fun _ _ state => (.ok .null, state + 1)) fun _ _ state => (.later, state)
    let wire := plainWire (.object [(of "method", .string multicall),
      (of "params", .array [.array [.object [(of "methodName", .text "aria2.pauseAll")]]])])
    (bodyCalls wire (.json [])).length = 2 ∧
      (serve wire dispatcher ⟨of "abc", 0, []⟩ (.json [])).1 =
        (serve wire dispatcher ⟨of "abc", 7, []⟩ (.json [])).1 := by
  intro dispatcher wire
  have hsilent : (bodyCalls wire (.json [])).all (fun call =>
      call.params.isEmpty || (multicallItems call.params).isSome) = true := by decide +kernel
  refine ⟨by decide +kernel, (serve_authorized wire dispatcher
    (by decide +kernel) (.json [])).2 (fun call hcall htoken => ?_) _ _ rfl rfl⟩
  have hcall := all_eq_true.mp hsilent call hcall
  obtain ⟨rest, hparams⟩ := head?_eq_some_iff.mp htoken
  simp [hparams, multicallItems] at hcall

end Aria2Next.Rpc
