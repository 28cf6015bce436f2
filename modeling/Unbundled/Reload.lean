import Unbundled.Text.Literal

/-! # The reload client

Every HTML page that is served gets a script that can reload it. The tag of the script carries an
attribute, and a page that holds the name of that attribute already is left as it is.

* `Reload.inject`: a page with the client.
* `Reload.updateScript`: the script that makes an open page reload.
-/

namespace Unbundled.Reload

/-- The attribute of the client's tag. -/
def marker : Text := "data-minivite-hmr".toList

/-- The client, as it stands between its tags. -/
def script : Text :=
  "
(function () \x7b
  console.log('[hmr] full-reload client ready');
  window.hotUpdate = function (modulePath) \x7b
    console.log('[hmr] update:', modulePath);
    location.reload();
  \x7d;
\x7d)();
".toList

/-- The client with its tags. -/
def tag : Text := "<script ".toList ++ marker ++ '>' :: script ++ "</script>".toList

/-- The tag that the client stands before. -/
def bodyEnd : Text := "</body>".toList

/-- A page with the client: before the first end of a body, or else at the end of the page. -/
def inject (page : Text) : Text :=
  if Text.includes page marker then page
  else
    match Text.cut? bodyEnd page with
    | some (before, after) => before ++ tag ++ bodyEnd ++ after
    | none => page ++ tag

/-- The script that makes an open page reload because a module changed. -/
def updateScript (module : Text) : Text :=
  "if (window.hotUpdate) \x7b\n  window.hotUpdate(".toList ++ Literal.quote module ++
    ");\n\x7d\n".toList

end Unbundled.Reload
