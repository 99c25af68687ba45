import Galley.Json.Shown
/-!
# Pages

The pages that fragments are put into: the article around a document, the page
of a diagram frame, and the script by which the preview listens to its frames.
A page is a text with places for values; a value is inserted as it is.
-/

namespace Galley.Page

/-! ## Filling in -/

inductive Part where
  | text (t : Text)
  /-- The place of a value. -/
  | place (name : Text)
  /-- A text that is there if a value is set. -/
  | whenSet (name : Text) (t : Text)

def Part.fill (values : List (Text × Json)) : Part → Text
  | .text t => t
  | .place name => ((values.lookup name).map Json.shown).getD []
  | .whenSet name t => if ((values.lookup name).map Json.isSet).getD false then t else []

/-- The page with its values; a missing value is empty. -/
def fill (page : List Part) (values : List (Text × Json)) : Text := page.flatMap (Part.fill values)

def ofLines (lines : List String) : Text := Text.joinWith ['\n'] (texts lines)

/-! ## The article -/

def article : List Part :=
  [.text "\\documentclass\x7barticle\x7d\n\\title\x7b", .place "title",
    .text "\x7d\n\\author\x7b", .place "author",
    .text "\x7d\n\\date\x7b", .place "date",
    .text "\x7d\n\\begin\x7bdocument\x7d\n", .whenSet "has_title" "\\maketitle\n",
    .place "body", .text "\n\\end\x7bdocument\x7d"]

/-! ## The diagram frame -/

/-- The head of the page. -/
def frameHead : List String := [
    "<!DOCTYPE html>",
    "<html>",
    "<head>",
    "  <meta charset=\"utf-8\">",
    "  <link rel=\"stylesheet\" href=\""]

/-- The style, and the begin marker of the picture. -/
def frameStyle : List String := [
    "/tikzjax.js\"></script>",
    "  <style>",
    "    body \x7b",
    "      margin: 0;",
    "      padding: 0;",
    "      display: flex;",
    "      flex-direction: column;",
    "      align-items: center;",
    "      overflow: hidden;",
    "      width: 100%;",
    "    \x7d",
    "    svg \x7b",
    "      width: auto !important;",
    "      height: auto !important;",
    "      max-width: 100% !important;",
    "      display: block;",
    "      margin: 0 auto;",
    "    \x7d",
    "    .tikzjax-container \x7b",
    "      width: 100%;",
    "      display: flex;",
    "      justify-content: center;",
    "    \x7d",
    "    .tikz-loading \x7b",
    "      width: 100%;",
    "      display: flex;",
    "      align-items: center;",
    "      justify-content: center;",
    "      padding: 40px 20px;",
    "      box-sizing: border-box;",
    "      color: #666;",
    "      font-family: -apple-system, BlinkMacSystemFont, 'Segoe UI', Roboto, sans-serif;",
    "      font-size: 14px;",
    "      white-space: nowrap;",
    "      animation: pulse 1.5s ease-in-out infinite;",
    "    \x7d",
    "    @keyframes pulse \x7b",
    "      0%, 100% \x7b opacity: 0.5; \x7d",
    "      50% \x7b opacity: 1; \x7d",
    "    \x7d",
    "    .tikz-loading.hidden \x7b display: none; \x7d",
    "  </style>",
    "  <script>",
    "    window.addEventListener('error', function (e) \x7b",
    "      if (e.message && e.message.indexOf('message channel closed') !== -1) e.preventDefault();",
    "    \x7d);",
    "    window.addEventListener('unhandledrejection', function (e) \x7b",
    "      if (e.reason && e.reason.message && e.reason.message.indexOf('message channel closed') !== -1) e.preventDefault();",
    "    \x7d);",
    "  </script>",
    "</head>",
    "<body>",
    "  <div id=\"tikz-loading\" class=\"tikz-loading\">",
    "    <div>[ Generating diagram... ]</div>",
    "  </div>",
    "  <div class=\"tikzjax-container\">",
    "    <script type=\"text/tikz\">",
    "      \\begin\x7btikzpicture\x7d"]

/-- From the end marker of the picture to the name of the frame. -/
def frameScript : List String := [
    "",
    "      \\end\x7btikzpicture\x7d",
    "    </script>",
    "  </div>",
    "  <script>",
    "    (function () \x7b",
    "      var diagramId = \""]

/-- Up to the first number of the height. -/
def frameReport : List String := [
    "\";",
    "      function report() \x7b",
    "        var svg = document.querySelector('svg');",
    "        if (!svg) return;",
    "        var loading = document.getElementById('tikz-loading');",
    "        if (loading) loading.classList.add('hidden');",
    "        var height = Math.max(svg.getBoundingClientRect().height + "]

/-- The end of the page. -/
def frameEnd : List String := [
    ");",
    "        try \x7b",
    "          if (window.frameElement) \x7b",
    "            window.frameElement.style.height = height + 'px';",
    "            return;",
    "          \x7d",
    "        \x7d catch (e) \x7b\x7d",
    "        try \x7b",
    "          window.parent.postMessage(\x7btype: 'texpreview-diagram-height', id: diagramId, height: height\x7d, '*');",
    "        \x7d catch (e) \x7b\x7d",
    "      \x7d",
    "      new MutationObserver(report).observe(document.body, \x7bchildList: true, subtree: true\x7d);",
    "    \x7d)();",
    "  </script>",
    "</body>",
    "</html>"]

/-- The page of a diagram frame: it draws the picture and reports its height. -/
def frame : List Part :=
  [.text (ofLines frameHead),
    .place "tikzjax_base",
    .text "/fonts.css\">\n  <script src=\"",
    .place "tikzjax_base",
    .text (ofLines frameStyle),
    .place "options",
    .text "\n      ",
    .place "body",
    .text (ofLines frameScript),
    .place "diagram_id",
    .text (ofLines frameReport),
    .place "height_padding",
    .text ", ",
    .place "min_height",
    .text (ofLines frameEnd)]

/-! ## The listener -/

/-- The script that resizes a frame when the frame reports its height. -/
def listenerLines : List String := [
    "<script>",
    "  (function () \x7b",
    "    if (window.__texpreviewDiagramListener) return;",
    "    window.__texpreviewDiagramListener = true;",
    "    window.addEventListener('message', function (e) \x7b",
    "      var data = e.data;",
    "      if (!data || data.type !== 'texpreview-diagram-height') return;",
    "      var height = Number(data.height);",
    "      if (!isFinite(height) || height < 0) return;",
    "      var frames = document.querySelectorAll('iframe[data-diagram-id]');",
    "      for (var i = 0; i < frames.length; i++) \x7b",
    "        // Only the frame that sent the message may resize itself",
    "        if (frames[i].contentWindow === e.source &&",
    "            frames[i].getAttribute('data-diagram-id') === String(data.id)) \x7b",
    "          frames[i].style.height = height + 'px';",
    "          return;",
    "        \x7d",
    "      \x7d",
    "    \x7d);",
    "  \x7d)();",
    "</script>"]

def listener : List Part := [.text (ofLines listenerLines)]

/-- The pages by name. -/
def named? (name : Text) : Option (List Part) :=
  if name = "diagram_sandbox.html" then some frame
  else if name = "diagram_host.html" then some listener
  else if name = "preamble.tex" then some article
  else none

end Galley.Page
