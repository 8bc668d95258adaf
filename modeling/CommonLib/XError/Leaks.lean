import CommonLib.Reasoning.JSON
import CommonLib.XError.Response

/-!
# What a response tells of a nested error

The text of an error holds the texts of all errors below it, so a body shows the base of a chain
unless the outermost error is one that keeps its nested error to itself.
-/

namespace CommonLib.XError

open CommonLib.Reasoning

/-- One call that wraps an error: a constructor of `xerror` that takes one, or `fmt.Errorf` with a
`%w` between two texts. -/
inductive Layer
  | eInternalError (description : GoString)
  | wInternalError (label description : GoString)
  | eInvalidArgument (description : GoString)
  | wInvalidArgument (label description : GoString)
  | eInvalidField (description failedField : GoString)
  | wInvalidField (label description failedField : GoString)
  | eEntryNotFound (description : GoString)
  | wEntryNotFound (label description : GoString)
  | eExists (description : GoString)
  | wExists (label description : GoString)
  | eStorageError (description : GoString)
  | wStorageError (label description : GoString)
  | eTunnelError (description : GoString)
  | wTunnelError (label description : GoString)
  | eUnauthorized (description : GoString)
  | wUnauthorized (label description : GoString)
  | eAuthenticationFailed (description : GoString)
  | wAuthenticationFailed (label description : GoString)
  | eNotEnoughSpace (description : GoString)
  | wNotEnoughSpace (label description : GoString)
  | eUnavailable (description : GoString)
  | wUnavailable (label description : GoString)
  | eEntityTooLarge (description : GoString)
  | eTooEarly (description : GoString)
  | errorf (before after : GoString)

def Layer.wrap (err : AnyError) : Layer → AnyError
  | .eInternalError description => XError.eInternalError description (some err)
  | .wInternalError label description => XError.wInternalError label description (some err)
  | .eInvalidArgument description => XError.eInvalidArgument description (some err)
  | .wInvalidArgument label description => XError.wInvalidArgument label description (some err)
  | .eInvalidField description failedField =>
      XError.eInvalidField description failedField (some err)
  | .wInvalidField label description failedField =>
      XError.wInvalidField label description failedField (some err)
  | .eEntryNotFound description => XError.eEntryNotFound description (some err)
  | .wEntryNotFound label description => XError.wEntryNotFound label description (some err)
  | .eExists description => XError.eExists description (some err)
  | .wExists label description => XError.wExists label description (some err)
  | .eStorageError description => XError.eStorageError description (some err)
  | .wStorageError label description => XError.wStorageError label description (some err)
  | .eTunnelError description => XError.eTunnelError description (some err)
  | .wTunnelError label description => XError.wTunnelError label description (some err)
  | .eUnauthorized description => XError.eUnauthorized description (some err)
  | .wUnauthorized label description => XError.wUnauthorized label description (some err)
  | .eAuthenticationFailed description => XError.eAuthenticationFailed description (some err)
  | .wAuthenticationFailed label description =>
      XError.wAuthenticationFailed label description (some err)
  | .eNotEnoughSpace description => XError.eNotEnoughSpace description (some err)
  | .wNotEnoughSpace label description => XError.wNotEnoughSpace label description (some err)
  | .eUnavailable description => XError.eUnavailable description (some err)
  | .wUnavailable label description => XError.wUnavailable label description (some err)
  | .eEntityTooLarge description => XError.eEntityTooLarge description (some err)
  | .eTooEarly description => XError.eTooEarly description (some err)
  | .errorf before after => .errorf before after err

/-- The errors that do not show what they nest. -/
def Layer.secretive : Layer → Bool
  | .eInternalError _ | .wInternalError .. | .eUnauthorized _ | .wUnauthorized ..
  | .eAuthenticationFailed _ | .wAuthenticationFailed .. => true
  | _ => false

/-- The error made by wrapping an error with the text `b`, the first layer outermost. -/
def build (layers : List Layer) (b : GoString) : AnyError :=
  layers.foldr (fun layer err ↦ layer.wrap err) (.other b)

theorem build_cons (layer : Layer) (layers : List Layer) (b : GoString) :
    build (layer :: layers) b = layer.wrap (build layers b) := rfl

/-- What a layer makes of an error: an `*Error` that nests it, or a text around it. -/
inductive Layer.Shape (layer : Layer) : Prop
  | xerror (e : Fields) (hwrap : ∀ err, layer.wrap err = .xNested e err)
      (hsecret : layer.secretive = decide (e.serializer = .secretive))
  | errorf (before after : GoString) (hwrap : ∀ err, layer.wrap err = .errorf before after err)
      (hopen : layer.secretive = false)

theorem Layer.shape (layer : Layer) : layer.Shape := by
  cases layer with
  | errorf before after => exact .errorf before after (fun _ ↦ rfl) rfl
  | _ => exact .xerror _ (fun _ ↦ rfl) rfl

/-! ## The text of a chain -/

theorem Layer.error_wrap (layer : Layer) :
    ∃ before after, ∀ err, (layer.wrap err).error = before ++ err.error ++ after := by
  cases layer.shape with
  | xerror e hwrap _ =>
      refine ⟨e.description ++ .ofASCII ": ", [], fun err ↦ ?_⟩
      rw [hwrap, List.append_nil]
      rfl
  | errorf before after hwrap _ =>
      refine ⟨before, after, fun err ↦ ?_⟩
      rw [hwrap]
      rfl

/-- Nothing of the base is lost on the way up. -/
theorem error_build (layers : List Layer) :
    ∃ before after, ∀ b, (build layers b).error = before ++ b ++ after := by
  induction layers with
  | nil => exact ⟨[], [], fun b ↦ (List.append_nil _).symm⟩
  | cons layer layers ih =>
      obtain ⟨before, after, hrest⟩ := ih
      obtain ⟨before', after', hlayer⟩ := layer.error_wrap
      refine ⟨before' ++ before, after ++ after', fun b ↦ ?_⟩
      rw [build_cons, hlayer, hrest]
      simp only [List.append_assoc]

/-- The texts of two chains over different letters stay different in the body. -/
theorem toValid_error_ne (layers : List Layer) :
    UTF8.toValid (build layers [97]).error ≠ UTF8.toValid (build layers [98]).error := by
  obtain ⟨before, after, htext⟩ := error_build layers
  rw [htext, htext, List.append_assoc, List.append_assoc, List.singleton_append,
    List.singleton_append, UTF8.toValid_append_ascii (by decide),
    UTF8.toValid_append_ascii (by decide)]
  intro heq
  have hhead := (List.cons.inj (List.append_cancel_left heq)).1
  exact absurd hhead (by decide)

/-! ## The response -/

/-- The status and the body are the same whatever the text of the base. -/
def Hides (m : Marshaller) (layers : List Layer) : Prop :=
  ∀ b b', errorToHttpResponse m (build layers b) = errorToHttpResponse m (build layers b')

variable (m : Marshaller)

theorem hides_iff_outermost (layers : List Layer) :
    Hides m layers ↔ layers.head?.any Layer.secretive := by
  cases layers with
  | nil =>
      -- the base alone is answered with its text
      apply iff_of_false _ Bool.false_ne_true
      intro hhides
      have hvalid := m.tells _ _ (Prod.mk.inj (hhides [97] [98])).2
      exact toValid_error_ne [] (Option.some.inj (OpenAPIError.mk.inj hvalid).2.1)
  | cons layer layers =>
      rw [List.head?_cons, Option.any_some]
      unfold Hides
      simp only [build_cons]
      cases layer.shape with
      | xerror e hwrap hsecret =>
          simp only [hwrap, hsecret, errorToHttpResponse, Fields.serialize]
          cases e.serializer with
          | secretive => exact iff_of_true (fun _ _ ↦ rfl) rfl
          | default =>
              apply iff_of_false _ Bool.false_ne_true
              intro hhides
              have hvalid := m.tells _ _ (Prod.mk.inj (hhides [97] [98])).2
              exact toValid_error_ne layers (Option.some.inj (OpenAPIError.mk.inj hvalid).2.2.2)
      | errorf before after hwrap hopen =>
          rw [hopen]
          apply iff_of_false _ Bool.false_ne_true
          intro hhides
          have hsame := hhides [97] [98]
          simp only [hwrap, errorToHttpResponse] at hsame
          have hvalid := m.tells _ _ (Prod.mk.inj hsame).2
          have htext := toValid_error_ne (layer :: layers)
          simp only [build_cons, hwrap] at htext
          exact htext (Option.some.inj (OpenAPIError.mk.inj hvalid).2.1)

/-! ### The assumption on JSON can be met -/

def ErrorResult.text : ErrorResult → GoString
  | .internalError => .ofASCII "INTERNAL_ERROR"
  | .invalidArgument => .ofASCII "INVALID_ARGUMENT"
  | .notFound => .ofASCII "NOT_FOUND"
  | .entryExists => .ofASCII "ENTRY_EXISTS"
  | .storageError => .ofASCII "STORAGE_ERROR"
  | .tunnelError => .ofASCII "TUNNEL_ERROR"
  | .unauthorized => .ofASCII "UNAUTHORIZED"
  | .authFailed => .ofASCII "AUTH_FAILED"
  | .insufficientStorage => .ofASCII "INSUFFICIENT_STORAGE"
  | .serviceUnavailable => .ofASCII "SERVICE_UNAVAILABLE"
  | .configurationRequired => .ofASCII "CONFIGURATION_REQUIRED"
  | .forbidden => .ofASCII "FORBIDDEN"
  | .invalidConfiguration => .ofASCII "INVALID_CONFIGURATION"
  | .tooLong => .ofASCII "TOO_LONG"
  | .tooEarly => .ofASCII "TOO_EARLY"
  | .noLicense => .ofASCII "NO_LICENSE"
  | .limitExceeded => .ofASCII "LIMIT_EXCEEDED"
  | .unknownError => .ofASCII "UNKNOWN_ERROR"

theorem ErrorResult.text_injective : Function.Injective ErrorResult.text := by
  let all : List ErrorResult := [.internalError, .invalidArgument, .notFound, .entryExists,
    .storageError, .tunnelError, .unauthorized, .authFailed, .insufficientStorage,
    .serviceUnavailable, .configurationRequired, .forbidden, .invalidConfiguration, .tooLong,
    .tooEarly, .noLicense, .limitExceeded, .unknownError]
  have hfind (r : ErrorResult) : all.find? (fun x ↦ decide (x.text = r.text)) = some r := by
    cases r <;> rfl
  intro r r' htext
  have hsame := hfind r
  rw [htext, hfind r'] at hsame
  exact (Option.some.inj hsame).symm

/-- A text that is left out if its pointer is nil. -/
def optional (name : String) (v : Option GoString) : List JSON.Member :=
  v.toList.map fun v ↦ (.ofASCII name, .string v)

def OpenAPIError.members (o : OpenAPIError) : List JSON.Member :=
  [(.ofASCII "result", .string o.result.text)] ++ optional "error" o.error ++
    optional "field" o.field ++ optional "details" o.details

/-- What the members say about a name. -/
def textOf (name : String) (ms : List JSON.Member) : Option JSON.Value :=
  ms.lookup (.ofASCII name)

theorem textOf_members (o : OpenAPIError) :
    let ms := o.members.map JSON.Member.valid
    textOf "result" ms = some (.string o.result.text) ∧
      textOf "error" ms = o.valid.error.map .string ∧
      textOf "field" ms = o.valid.field.map .string ∧
      textOf "details" ms = o.valid.details.map .string := by
  obtain ⟨result, error, field, details⟩ := o
  have hresult : UTF8.toValid result.text = result.text := by cases result <;> rfl
  refine ⟨?_, ?_, ?_, ?_⟩
  · change some (JSON.Value.string (UTF8.toValid result.text)) = _
    rw [hresult]
  all_goals cases error <;> cases field <;> cases details <;> rfl

/-- `json.MarshalIndent` of the object. -/
def jsonMarshaller : Marshaller where
  marshalError o := JSON.Layout.indented.object o.members
  tells o o' heq := by
    have hread := congrArg JSON.readObject heq
    rw [JSON.readObject_object, JSON.readObject_object, Option.some.injEq] at hread
    obtain ⟨hresult, herror, hfield, hdetails⟩ := textOf_members o
    obtain ⟨hresult', herror', hfield', hdetails'⟩ := textOf_members o'
    have hinj : Function.Injective (Option.map JSON.Value.string) :=
      Option.map_injective fun _ _ ↦ JSON.Value.string.inj
    rw [hread] at hresult herror hfield hdetails
    have htext := JSON.Value.string.inj (Option.some.inj (hresult.symm.trans hresult'))
    have hcode : o.result = o'.result := ErrorResult.text_injective htext
    change OpenAPIError.mk o.result o.valid.error o.valid.field o.valid.details = _
    rw [hcode, hinj (herror.symm.trans herror'), hinj (hfield.symm.trans hfield'),
      hinj (hdetails.symm.trans hdetails')]
    rfl

/-- An internal error that an invalid argument nests is told to the client: the bodies for the bases
`a` and `b` differ. -/
theorem nested_secret_leaks :
    Nonempty Marshaller ∧ ∀ m : Marshaller,
      Layer.secretive (.eInternalError [100]) ∧
      errorToHttpResponse m (build [.eInvalidArgument [99], .eInternalError [100]] [97]) ≠
        errorToHttpResponse m (build [.eInvalidArgument [99], .eInternalError [100]] [98]) := by
  refine ⟨⟨jsonMarshaller⟩, fun m ↦ ⟨rfl, fun heq ↦ ?_⟩⟩
  have hvalid := m.tells _ _ (Prod.mk.inj heq).2
  exact absurd (OpenAPIError.mk.inj hvalid).2.2.2 (by decide)

end CommonLib.XError
