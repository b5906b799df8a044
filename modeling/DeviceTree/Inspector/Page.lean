import DeviceTree.Bytes

namespace DeviceTree.Inspector

def pageLines : List String := [
  "<!DOCTYPE html>",
  "<html>",
  "<head>",
  "    <title>Devicetree Inspector</title>",
  "    <script src=\"https://cdn.jsdelivr.net/npm/mermaid/dist/mermaid.min.js\"></script>",
  "    <script>",
  "        mermaid.initialize(\x7b startOnLoad: true, theme: 'base' \x7d);",
  "        function refresh() \x7b",
  "            fetch('/graph')",
  "                .then(response => response.text())",
  "                .then(text => \x7b",
  "                    const container = document.getElementById('graph-container');",
  "                    if (container.getAttribute('data-last') === text) return;",
  "                    container.setAttribute('data-last', text);",
  "                    container.removeAttribute('data-processed');",
  "                    container.innerHTML = text;",
  "                    mermaid.run(\x7b nodes: [container] \x7d);",
  "                \x7d)",
  "                .catch(err => console.error(err));",
  "        \x7d",
  "        setInterval(refresh, 1000);",
  "    </script>",
  "    <style>",
  "        body \x7b font-family: -apple-system, BlinkMacSystemFont, 'Segoe UI', Roboto, sans-serif; background: #f4f7f6; margin: 0; color: #2c3e50; \x7d",
  "        header \x7b background: #1f4e79; color: white; padding: 1rem 2.5rem; \x7d",
  "        h1 \x7b margin: 0; font-size: 1.25rem; font-weight: 600; \x7d",
  "        main \x7b padding: 2rem; max-width: 1200px; margin: 0 auto; \x7d",
  "        #graph-container \x7b background: white; padding: 2.5rem; border-radius: 12px; min-height: 500px; border: 1px solid #e2e8f0; \x7d",
  "        a \x7b color: #1f4e79; \x7d",
  "    </style>",
  "</head>",
  "<body>",
  "    <header><h1>Devicetree Inspector</h1></header>",
  "    <main>",
  "        <p>Hover a node in the editor to focus it. <a href=\"/tree\">Merged tree</a></p>",
  "        <div id=\"graph-container\" class=\"mermaid\">",
  "            graph TD",
  "            A[Initializing...]",
  "        </div>",
  "    </main>",
  "</body>",
  "</html>"]

def page : Bytes := pageLines.flatMap fun line => utf8 line ++ utf8 "\n"

end DeviceTree.Inspector
